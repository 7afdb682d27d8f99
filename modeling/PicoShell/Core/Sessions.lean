import PicoShell.Core.View

namespace PicoShell.Core

open Scheduling

variable {s : Sizes} {size : ℕ} {H : Type} {o : Setting s size H} {m m' : Memory s size H}
  {v : View} {w : World size H} {cmds : List UserCommand} {lines : List (List UserCommand)}

def typedLine (cmds : List UserCommand) : List UInt8 :=
  renderLine (cmds.map UserCommand.phrase) ++ [newline]

theorem exists_parse {segs : List (List UInt8)} {commands : List Phrase} {seg : List UInt8}
    (h : List.Forall₂ (fun seg (cmd : Phrase) => parseCommand seg = .ok cmd.args) segs commands)
    (hseg : seg ∈ segs) : ∃ cmd ∈ commands, parseCommand seg = .ok cmd.args := by
  induction h with
  | nil => exact absurd hseg List.not_mem_nil
  | cons hparse _ ih =>
    rcases List.mem_cons.mp hseg with rfl | hseg
    · exact ⟨_, List.mem_cons_self, hparse⟩
    · obtain ⟨cmd, hcmd, hparse⟩ := ih hseg
      exact ⟨cmd, List.mem_cons_of_mem _ hcmd, hparse⟩

theorem plainLine_typedLine (h : Typable (cmds.map UserCommand.phrase)) :
    PlainLine (typedLine cmds) := by
  intro seg hseg words hwords
  obtain ⟨phrase, hphrase, hparse⟩ := exists_parse (segments_renderLine h (.inr rfl)) hseg
  obtain ⟨cmd, -, rfl⟩ := List.mem_map.mp hphrase
  rw [hparse] at hwords
  obtain rfl := Option.some.inj hwords
  exact cmd.plain

namespace View.Shows

theorem line (h : v.Shows w) (htypable : Typable (cmds.map UserCommand.phrase))
    (hallowed : v.AllowedFor size cmds) : ∃ code w',
      worldLine o (typedLine cmds) w = .ok (code, w') ∧ (v.runAll cmds).Shows w' ∧
        w'.host = w.host := by
  obtain ⟨code, w', hrun, hshows⟩ := h.tick.commands (o := o) hallowed (o.errorCode w)
  exact ⟨code, w', (parseInput_render _ htypable (.inr rfl) _ _).trans hrun, hshows⟩

theorem script (h : v.Shows w) (htypable : ∀ cmds ∈ lines, Typable (cmds.map UserCommand.phrase))
    (hallowed : v.AllowedFor size lines.flatten) : ∃ w',
      typeLines o (lines.map typedLine) w = .ok w' ∧ (v.runAll lines.flatten).Shows w' ∧
        w'.host = w.host := by
  induction lines generalizing v w with
  | nil => exact ⟨w, rfl, h, rfl⟩
  | cons cmds lines ih =>
    obtain ⟨hcmds, htypable⟩ := List.forall_mem_cons.mp htypable
    rw [List.flatten_cons, View.allowedFor_append] at hallowed
    obtain ⟨code, w₁, hline, h₁, hhost₁⟩ := h.line (o := o) hcmds hallowed.1
    obtain ⟨w', hlines, h', hhost⟩ := ih h₁ htypable hallowed.2
    refine ⟨w', typeLines_cons.mpr ⟨code, w₁, hline, hlines⟩, ?_, hhost.trans hhost₁⟩
    rwa [List.flatten_cons, View.runAll_append]

end View.Shows

/-- A line of commands, or `exec` of some scripts under `FCFS`. -/
inductive UserLine
  | commands (cmds : List UserCommand)
  | exec (names : List Word) (h : 0 < names.length ∧ names.length ≤ 3)

def execPhrase (names : List Word) (h : names.length ≤ 3) : Phrase where
  words := ⟨ascii "exec", by decide, by decide, by decide⟩ ::
    (names ++ [⟨ascii "FCFS", by decide, by decide, by decide⟩])
  nonempty := List.cons_ne_nil _ _
  short := by
    rw [List.length_cons, List.length_append, List.length_singleton]
    show names.length + 1 + 1 ≤ 100
    omega

namespace UserLine

def text : UserLine → List UInt8
  | commands cmds => typedLine cmds
  | exec names h => renderLine [execPhrase names h.2] ++ [newline]

variable (scripts : String → List (List UserCommand))

def toCommands : UserLine → List UserCommand
  | commands cmds => cmds
  | exec names _ => (names.flatMap fun name => scripts name.text).flatten

/-- The line can be typed; the scripts are different ones, and each fits a process. -/
def Fits : UserLine → Prop
  | commands cmds => Typable (cmds.map UserCommand.phrase)
  | exec names _ => (names.map Word.text).Nodup ∧ ∀ name ∈ names, scripts name.text ≠ [] ∧
      (scripts name.text).length ≤ maxLines ∧
      ∀ cmds ∈ scripts name.text, Typable (cmds.map UserCommand.phrase)

end UserLine

theorem typable_exec (names : List Word) (h : names.length ≤ 3) : Typable [execPhrase names h] := by
  refine ⟨List.cons_ne_nil _ _, Nat.le_add_left 1 99, ?_⟩
  have hwords := length_intercalate_le (Word.short_of_mem (execPhrase names h).words)
  have hlen : ((execPhrase names h).words.map Word.bytes).length = names.length + 2 := by
    simp [execPhrase]
  rw [renderLine, List.map_singleton, List.intercalate_singleton]
  show ([space].intercalate ((execPhrase names h).words.map Word.bytes)).length < 1000
  omega

theorem isExec_text (names : List Word) (h : 0 < names.length ∧ names.length ≤ 3) :
    IsExec (UserLine.exec names h).text (names.map Word.bytes) (ascii "FCFS") := by
  have hsegments := segments_renderLine (typable_exec names h.2) (.inr (rfl : [newline] = [newline]))
  cases hread : (Fields.runs semicolon (UserLine.exec names h).text).take maxNumCommands with
  | nil =>
    rw [UserLine.text] at hread
    rw [hread] at hsegments
    cases hsegments
  | cons seg segs =>
    rw [UserLine.text] at hread
    rw [hread] at hsegments
    obtain ⟨hparse, hnil⟩ := List.forall₂_cons.mp hsegments
    rw [List.forall₂_nil_right_iff.mp hnil] at hread
    refine ⟨seg, (execPhrase names h.2).args, ?_, hparse, ?_, ?_, ?_⟩
    · rw [readCommands_line]
      exact congrArg Except.ok hread
    · rw [Phrase.args, map_chomp]
      simp [execPhrase]
    · rw [List.length_map]
      exact h.1
    · rw [List.length_map]
      exact h.2

def Stocked (o : Setting s size H) (host : H) (scripts : String → List (List UserCommand)) : Prop :=
  ∀ name, scripts name ≠ [] → o.host.lines host name = some ((scripts name).map typedLine)

variable {scripts : String → List (List UserCommand)} {names : List Word}

theorem Stocked.plain (h : Stocked o m.world.host scripts) {hlen : 0 < names.length ∧ names.length ≤ 3}
    (hfits : (UserLine.exec names hlen).Fits scripts) : ∀ name ∈ names.map Word.bytes,
    PlainFile (o.host.lines m.world.host (textOf name)) := by
  intro name hname
  obtain ⟨word, hword, rfl⟩ := List.mem_map.mp hname
  obtain ⟨hne, hshort, htypable⟩ := hfits.2 word hword
  refine ⟨_, h _ hne, mt List.map_eq_nil_iff.mp hne, by rwa [List.length_map], ?_⟩
  intro line hline
  obtain ⟨cmds, hcmds, rfl⟩ := List.mem_map.mp hline
  exact plainLine_typedLine (htypable cmds hcmds)

theorem Stocked.fileLines (h : Stocked o m.world.host scripts)
    {hlen : 0 < names.length ∧ names.length ≤ 3} (hfits : (UserLine.exec names hlen).Fits scripts) :
    (names.map Word.bytes).flatMap (fileLines o m) =
      (names.flatMap fun name => scripts name.text).map typedLine := by
  rw [List.flatMap_map, List.map_flatMap]
  apply List.flatMap_congr
  intro word hword
  rw [Core.fileLines]
  show (o.host.lines m.world.host word.text).getD [] = _
  rw [h _ (hfits.2 word hword).1]
  rfl

/-- One line leads to the prompt where its commands lead. -/
theorem Process.reaches_line {line : UserLine} {input : List (List UInt8)}
    (h : Process.Reached o (.prompt m (line.text :: input))) (ho : o.Initialised)
    (halloc : m.allocated = []) (hstocked : Stocked o m.world.host scripts) (hv : v.Shows m.world)
    (hfits : line.Fits scripts) (hallowed : v.AllowedFor size (line.toCommands scripts)) :
    ∃ m', Relation.ReflTransGen (Goes o) (.prompt m (line.text :: input)) (.prompt m' input) ∧
      m'.allocated = [] ∧ m'.world.host = m.world.host ∧
      (v.runAll (line.toCommands scripts)).Shows m'.world := by
  cases line with
  | commands cmds =>
    obtain ⟨code, w, hline, hw, hhost⟩ := hv.line (o := o) hfits hallowed
    have heval : Evaluates o (typedLine cmds) m { m with world := w } code :=
      (evaluates_plain (plainLine_typedLine hfits)).mpr ⟨w, hline, rfl⟩
    exact ⟨_, reaches_prompt heval ho input, halloc, hhost, hw⟩
  | exec names hlen =>
    have hempty : m.queue = [] := by
      apply List.eq_nil_iff_forall_not_mem.mpr
      intro q hq
      have hmem := h.consistent.queue_mem hq
      rw [halloc] at hmem
      exact List.not_mem_nil hmem
    obtain ⟨w, hrun, hw, hhost⟩ := hv.tick.tick.script (o := o)
      (fun cmds hcmds => by
        obtain ⟨word, hword, hcmds⟩ := List.mem_flatMap.mp hcmds
        exact (hfits.2 word hword).2.2 cmds hcmds) hallowed
    rw [← hstocked.fileLines hfits] at hrun
    obtain ⟨m', code, heval, halloc', hworld⟩ := (evaluates_fcfs h.consistent hempty
      (isExec_text names hlen) (by decide) (by rw [List.map_map]; exact hfits.1)
      (hstocked.plain hfits) w).mpr hrun
    rw [← hworld] at hw hhost
    exact ⟨m', reaches_prompt heval ho input, halloc', hhost, hw⟩

variable {session : List UserLine}

theorem Process.reaches_shown {input : List (List UInt8)}
    (h : Process.Reached o (.prompt m (session.map UserLine.text ++ input))) (ho : o.Initialised)
    (halloc : m.allocated = []) (hstocked : Stocked o m.world.host scripts) (hv : v.Shows m.world)
    (hfits : ∀ line ∈ session, line.Fits scripts)
    (hallowed : v.AllowedFor size (session.flatMap (UserLine.toCommands scripts))) :
    ∃ m', Relation.ReflTransGen (Goes o) (.prompt m (session.map UserLine.text ++ input))
        (.prompt m' input) ∧ m'.allocated = [] ∧
      (v.runAll (session.flatMap (UserLine.toCommands scripts))).Shows m'.world := by
  induction session generalizing v m with
  | nil => exact ⟨m, .refl, halloc, hv⟩
  | cons line session ih =>
    obtain ⟨hline, hfits⟩ := List.forall_mem_cons.mp hfits
    rw [List.flatMap_cons, View.allowedFor_append] at hallowed
    obtain ⟨m₁, hfirst, halloc₁, hhost, h₁⟩ :=
      reaches_line h ho halloc hstocked hv hline hallowed.1
    rw [← hhost] at hstocked
    obtain ⟨m', hrest, hend⟩ := ih (Reached.trans h hfirst) halloc₁ hstocked h₁ hfits hallowed.2
    refine ⟨m', hfirst.trans hrest, ?_⟩
    rwa [List.flatMap_cons, View.runAll_append]

/-- After `main`'s initialisation the shell shows the empty session. -/
theorem boot_shown (heap : ℕ → PCB s (List UInt8)) (host : H) (cwd : Fs.Inode) (buf : Fs.Block)
    (stack : ℕ → Bytes 64) (input : List (List UInt8)) :
    ∃ m, boot heap host cwd buf stack input = .ok (.prompt m input) ∧
      Process.Reached o (.prompt m input) ∧ m.allocated = [] ∧ m.world.host = host ∧
      View.init.Shows m.world := by
  obtain ⟨d, hinit, -⟩ := Fs.fsInit_spec cwd buf stack
  let m : Memory s size H :=
    memInit heap ⟨PicoShell.Memory.vstoreInit size, ⟨d, d.inode 0⟩, host, "", 0⟩
  have hv : View.init.Shows m.world := View.shows_init ⟨_, _, _, _, hinit⟩ _
  refine ⟨m, ?_, ⟨heap, m.world, _, .refl⟩, rfl, rfl, hv⟩
  rw [boot, hinit]
  rfl

/-- `mkdir /a;set x y`, and `echo $x;cd /a`. -/
def scriptA : List (List UserCommand) :=
  [[.mkdir ⟨ascii "/a", by decide, by decide, by decide⟩,
    .set ⟨ascii "x", by decide, by decide, by decide⟩
      [⟨ascii "y", by decide, by decide, by decide⟩] (by decide)],
   [.echo ⟨ascii "$x", by decide, by decide, by decide⟩,
    .cd ⟨ascii "/a", by decide, by decide, by decide⟩]]

def sessionA : List UserLine :=
  [.exec [⟨ascii "a", by decide, by decide, by decide⟩] (by decide),
   .commands [.print ⟨ascii "x", by decide, by decide, by decide⟩]]

def filesA (name : String) : Option (List (List UInt8)) :=
  if name = "a" then some (scriptA.map typedLine) else none

def scriptsA (name : String) : List (List UserCommand) := if name = "a" then scriptA else []

theorem stocked_filesA : Stocked (Setting.ofFiles oneFrame 1 filesA) () scriptsA := by
  intro name hne
  show filesA name = _
  unfold filesA
  unfold scriptsA at hne ⊢
  split_ifs at hne ⊢
  · rfl
  · exact absurd rfl hne

theorem allowed_scriptA : View.init.AllowedFor 1 scriptA.flatten := by
  have hpath : View.init.path ⟨ascii "/a", by decide, by decide, by decide⟩ = some Fs.pathA := rfl
  refine ⟨?_, .inr (by decide), trivial, ?_, trivial⟩
  · intro p hp
    obtain rfl := Option.some.inj (hpath.symm.trans hp)
    exact ⟨fun _ => Fs.legal_pathA, fun name stack => (by decide : Fs.Catalog.init.Sound Fs.mkdirA)⟩
  · intro _
    exact ⟨fun _ => Fs.legal_pathA.short, by decide⟩

theorem initialised_filesA : (Setting.ofFiles oneFrame 1 filesA).Initialised :=
  ⟨fun _ => (by decide : (0 : ℤ) ≠ -1), fun _ => (by decide : (0 : ℤ) ≠ -1)⟩

theorem fits_sessionA : ∀ line ∈ sessionA, line.Fits scriptsA := by
  refine List.forall_mem_cons.mpr ⟨⟨by decide, fun name hname => ?_⟩, ?_⟩
  · rw [List.mem_singleton.mp hname]
    exact ⟨by decide, by decide, (by decide : ∀ cmds ∈ scriptA, Typable (cmds.map UserCommand.phrase))⟩
  · exact List.forall_mem_singleton.mpr (by decide : Typable _)

theorem allowed_sessionA :
    View.init.AllowedFor 1 (sessionA.flatMap (UserLine.toCommands scriptsA)) := by
  show View.init.AllowedFor 1 (scriptA.flatten ++ _)
  exact View.allowedFor_append.mpr ⟨allowed_scriptA, trivial, trivial⟩

end PicoShell.Core
