import PicoShell.Core.Rendering
import PicoShell.Core.Scripts
import PicoShell.Fs.Catalog

/-! Variables as a map, directories as a set of paths, and what the commands have printed.  What
is typed at the prompt does to the shell what it does to these. -/

namespace PicoShell.Core

open Scheduling

/-- Variables, directories, the working directory while it is there, and what was printed. -/
structure View where
  vars : String → Option String
  /-- The variables that have a value. -/
  names : Finset String
  mem_names : ∀ name, name ∈ names ↔ vars name ≠ none
  catalog : Fs.Catalog
  cwd : Option (List (List UInt8))
  printed : String

/-- Commands on variables and directories. -/
inductive UserCommand
  | help
  | set (name : Word) (value : List Word) (h : value ≠ [] ∧ value.length ≤ 5)
  | print (name : Word)
  | echo (text : Word)
  | mkdir (path : Word)
  | rmdir (path : Word)
  | cd (path : Word)

def Word.text (w : Word) : String := textOf w.bytes

namespace View

/-- No variables, only the root directory, nothing printed. -/
def init : View where
  vars _ := none
  names := ∅
  mem_names := by simp
  catalog := .init
  cwd := some []
  printed := ""

variable (v : View)

def say (out : String × ℤ) : ℤ × View := (out.2, { v with printed := v.printed ++ out.1 })

def assign (name value : String) : View where
  vars := Function.update v.vars name (some value)
  names := insert name v.names
  mem_names other := by
    rw [Finset.mem_insert, v.mem_names, Function.update_apply]
    split_ifs with hother
    · simp [hother]
    · simp [hother]
  catalog := v.catalog
  cwd := v.cwd
  printed := v.printed

/-- With other directories; the working directory may not be one of them. -/
def withCatalog (t : Fs.Catalog) : View :=
  { v with catalog := t, cwd := v.cwd.filter (· ∈ t.names.dirs) }

def value (name : String) : String × ℤ :=
  match v.vars name with
  | none => Memory.badcommandVariableDoesNotExist
  | some value => (value ++ "\n", 0)

/-- A text, or the value of a variable behind `$`. -/
def echo (text : String) : String × ℤ :=
  match text.toList with
  | '$' :: name => v.value (String.ofList name)
  | _ => (text ++ "\n", 0)

def path (w : Word) : Option Fs.CString :=
  Fs.fetchPath (fun key => (v.vars (textOf key)).map fun value => cstring (ascii value))
    (cstring w.bytes)

/-- `mkdir` or `rmdir`, up to what it does to the directories. -/
def onPath (w : Word) (call : Fs.CString → ℤ × Fs.Catalog) : ℤ × View :=
  match v.path w with
  | none => v.say Fs.badcommandVariableDoesNotExist
  | some path =>
    if !Fs.isValidPath path then v.say Fs.badcommandNotAlphanum
    else (v.withCatalog (call path).2).say
      (if (call path).1 ≠ 0 then Fs.badCommandErrorOccurred else ("", 0))

end View

namespace UserCommand

def run (v : View) : UserCommand → ℤ × View
  | help => v.say Core.help
  | set name value _ =>
    (0, v.assign name.text (textOf ([space].intercalate (value.map Word.bytes))))
  | print name => v.say (v.value name.text)
  | echo text => v.say (v.echo text.text)
  | mkdir path => v.onPath path fun p => v.catalog.create p .directoryT
  | rmdir path => v.onPath path fun p => v.catalog.delete p .directoryT
  | cd path =>
    if !Fs.isValidPath (cstring path.bytes) then v.say Fs.badcommandNotAlphanum
    else { v with cwd := v.catalog.find (cstring path.bytes) }.say ("", 0)

/-- There is a slot for the variable; the path is one that fits; no directory is made where one
was removed; and `cd` is given a directory. -/
def Allowed (size : ℕ) (v : View) : UserCommand → Prop
  | set name _ _ => name.text ∈ v.names ∨ v.names.card < size
  | mkdir path => ∀ p ∈ v.path path, Fs.Usable p ∧
      ∀ name stack, v.catalog.Sound (.create p .directoryT name stack)
  | rmdir path => ∀ p ∈ v.path path, Fs.Usable p
  | cd path => Fs.isValidPath (cstring path.bytes) = true →
      Fs.Short (cstring path.bytes) ∧ v.catalog.find (cstring path.bytes) ≠ none
  | _ => True

def command : UserCommand → Word
  | help => ⟨ascii "help", by decide, by decide, by decide⟩
  | set _ _ _ => ⟨ascii "set", by decide, by decide, by decide⟩
  | print _ => ⟨ascii "print", by decide, by decide, by decide⟩
  | echo _ => ⟨ascii "echo", by decide, by decide, by decide⟩
  | mkdir _ => ⟨ascii "mkdir", by decide, by decide, by decide⟩
  | rmdir _ => ⟨ascii "rmdir", by decide, by decide, by decide⟩
  | cd _ => ⟨ascii "cd", by decide, by decide, by decide⟩

def arguments : UserCommand → List Word
  | help => []
  | set name value _ => name :: value
  | print name => [name]
  | echo text => [text]
  | mkdir path => [path]
  | rmdir path => [path]
  | cd path => [path]

theorem length_arguments (cmd : UserCommand) : cmd.arguments.length ≤ 6 := by
  cases cmd with
  | set name value h =>
    simp only [arguments, List.length_cons]
    omega
  | _ => simp [arguments]

def phrase (cmd : UserCommand) : Phrase where
  words := cmd.command :: cmd.arguments
  nonempty := List.cons_ne_nil _ _
  short := (Nat.succ_le_succ cmd.length_arguments).trans (by decide)

end UserCommand

namespace View

variable (v : View)

def runAll (cmds : List UserCommand) : View := cmds.foldl (fun v cmd => (cmd.run v).2) v

def AllowedFor (size : ℕ) : View → List UserCommand → Prop
  | _, [] => True
  | v, cmd :: cmds => cmd.Allowed size v ∧ AllowedFor size (cmd.run v).2 cmds

end View

variable {s : Sizes} {size : ℕ} {H : Type} {o : Setting s size H} {v : View} {w : World size H}

def IsCwd (fs : Fs.State) (p : List (List UInt8)) : Prop :=
  fs.cwd.type = .directoryT ∧
    ∃ i : ℕ, fs.cwd.inum.toInt = i ∧ Walk.walk fs.disk.next 0 p = some i

structure View.Shows (v : View) (w : World size H) : Prop where
  unique : w.varTable.Unique
  vars : w.varTable.vstoreGet = v.vars
  disk : ∃ S, v.catalog.Depicts w.fs.disk S
  cwd : ∀ p ∈ v.cwd, p ∈ v.catalog.names.dirs ∧ IsCwd w.fs p
  printed : w.output = v.printed

theorem Word.chomp (w : Word) : Core.chomp w.bytes = w.bytes := by
  rw [Core.chomp, List.takeWhile_eq_self_iff]
  intro c hc
  have hclean := w.clean c hc
  simp only [List.mem_cons, not_or] at hclean
  simp [hclean]

theorem Word.short_of_mem (ws : List Word) : ∀ w ∈ ws.map Word.bytes, w.length < tmpSize := by
  intro w hw
  obtain ⟨word, -, rfl⟩ := List.mem_map.mp hw
  exact word.short

theorem map_chomp (ws : List Word) : (ws.map Word.bytes).map chomp = ws.map Word.bytes := by
  rw [List.map_map]
  exact List.map_congr_left fun w _ => w.chomp

namespace View.Shows

theorem tick (h : v.Shows w) : v.Shows w.tick := ⟨h.unique, h.vars, h.disk, h.cwd, h.printed⟩

theorem say (h : v.Shows w) (out : String × ℤ) : (v.say out).2.Shows (w.print out.1) :=
  ⟨h.unique, h.vars, h.disk, h.cwd, congrArg (· ++ out.1) h.printed⟩

theorem value (h : v.Shows w) (name : String) : Memory.print w.varTable name = v.value name := by
  rw [View.value, ← h.vars]
  rfl

theorem echo (h : v.Shows w) (text : String) : Memory.echo w.varTable text = v.echo text := by
  have hvalue : v.value = Memory.print w.varTable := funext fun name => (h.value name).symm
  rw [View.echo, hvalue]
  rfl

theorem keys (h : v.Shows w) : w.varTable.keys = v.names := by
  ext name
  rw [Slots.mem_keys, v.mem_names, ← h.vars, Option.ne_none_iff_exists']
  exact exists_congr fun value => (Memory.VariableStore.vstoreGet_eq_some h.unique).symm

theorem assign (h : v.Shows w) {name : String} (hroom : name ∈ v.names ∨ v.names.card < size)
    (value : String) :
    (v.assign name value).Shows { w with varTable := w.varTable.vstoreSet name value } := by
  rw [← h.keys] at hroom
  have hget : (w.varTable.vstoreSet name value).vstoreGet =
      Function.update w.varTable.vstoreGet name (some value) :=
    Memory.VariableStore.vstoreGet_vstoreSet h.unique hroom
  rw [h.vars] at hget
  exact ⟨Memory.VariableStore.unique_vstoreSet h.unique name value, hget, h.disk, h.cwd, h.printed⟩

theorem path (h : v.Shows w) (word : Word) :
    Fs.fetchPath w.getPath (cstring word.bytes) = v.path word := by
  have hget : w.getPath =
      fun key => (v.vars (textOf key)).map fun value => cstring (ascii value) := by
    funext key
    rw [World.getPath, h.vars]
  rw [hget, View.path]

/-- Other directories, where those that stay keep their inodes. -/
theorem withCatalog (h : v.Shows w) {t : Fs.Catalog} {d : Fs.Disk} {S : ℕ → Prop}
    (hdepicts : t.Depicts d S) (hkeeps : v.catalog.Keeps t w.fs.disk d) :
    (v.withCatalog t).Shows { w with fs := { w.fs with disk := d } } := by
  refine ⟨h.unique, h.vars, ⟨S, hdepicts⟩, fun p hp => ?_, h.printed⟩
  obtain ⟨hp, hmem⟩ := Option.mem_filter_iff.mp hp
  have hmem : p ∈ t.names.dirs := of_decide_eq_true hmem
  obtain ⟨hold, htype, i, hi, hwalk⟩ := h.cwd p hp
  exact ⟨hmem, htype, i, hi, (hkeeps p hold hmem).trans hwalk⟩

end View.Shows

theorem worldInterpreter_eq {words : List (List UInt8)} {code : ℤ} {w' : World size H}
    (h : ∀ m : Memory s size H, m.world = w.tick →
      interpreter o words m = .ok (.returned code { m with world := w' })) :
    worldInterpreter o words w = .ok (code, w') := by
  unfold worldInterpreter
  rw [h _ rfl]

namespace UserCommand

theorem map_chomp_args (cmd : UserCommand) :
    cmd.phrase.args.map chomp = cmd.command.bytes :: cmd.arguments.map Word.bytes :=
  map_chomp (cmd.command :: cmd.arguments)

theorem length_args (cmd : UserCommand) : cmd.phrase.args.length = cmd.arguments.length + 1 :=
  List.length_map _

theorem plain (cmd : UserCommand) : Plain cmd.phrase.args := by
  unfold Plain
  rw [map_chomp_args, List.getD_cons_zero]
  cases cmd with
  | _ =>
    simp only [command]
    decide

theorem interpreter_set (name : Word) (value : List Word) (h : value ≠ [] ∧ value.length ≤ 5)
    (m : Memory s size H) : interpreter o (set name value h).phrase.args m =
      .ok (setCommand name.bytes ([space].intercalate (value.map Word.bytes)) m) := by
  have hpos := List.length_pos_iff.mpr h.1
  have hjoin : joinTokens (value.map Word.bytes) [] =
      .ok ([space].intercalate (value.map Word.bytes)) := by
    apply joinTokens_short
    · exact Word.short_of_mem value
    · rw [List.length_map]
      exact h.2
  unfold interpreter
  rw [map_chomp_args, length_args]
  simp only [command, arguments, List.map_cons, List.length_cons, List.getD_cons_zero,
    List.getD_cons_succ, List.drop_succ_cons, List.drop_zero, hjoin]
  rw [if_neg (by omega), if_neg (by simp only [maxArgsSize]; omega), if_neg (by decide),
    if_neg (by decide), if_pos trivial, if_neg (by omega)]
  rfl

theorem interpreter_print (name : Word) (m : Memory s size H) :
    interpreter o (print name).phrase.args m =
      .ok (respond (Memory.print m.world.varTable name.text) m) := by
  rw [Word.text, ← name.chomp]
  rfl

theorem interpreter_echo (text : Word) (m : Memory s size H) :
    interpreter o (echo text).phrase.args m =
      .ok (respond (Memory.echo m.world.varTable text.text) m) := by
  rw [Word.text, ← text.chomp]
  rfl

theorem interpreter_mkdir (path : Word) (m : Memory s size H) :
    interpreter o (mkdir path).phrase.args m = pathCommand o .mkdir path.bytes m := by
  rw [← path.chomp]
  rfl

theorem interpreter_rmdir (path : Word) (m : Memory s size H) :
    interpreter o (rmdir path).phrase.args m = pathCommand o .rmdir path.bytes m := by
  rw [← path.chomp]
  rfl

theorem interpreter_cd (path : Word) (m : Memory s size H) :
    interpreter o (cd path).phrase.args m = pathCommand o .cd path.bytes m := by
  rw [← path.chomp]
  rfl

end UserCommand

/-- `mkdir` or `rmdir`, up to the call of the file system. -/
def withPath (vstore : List UInt8 → Option Fs.CString) (disk : Fs.Disk) (arg : Fs.CString)
    (call : Fs.CString → Exec (ℤ × Fs.Disk)) : Exec ((String × ℤ) × Fs.Disk) :=
  match Fs.fetchPath vstore arg with
  | none => .ok (Fs.badcommandVariableDoesNotExist, disk)
  | some path =>
    if !Fs.isValidPath path then .ok (Fs.badcommandNotAlphanum, disk)
    else do
      let (r, disk) ← call path
      return (if r ≠ 0 then Fs.badCommandErrorOccurred else ("", 0), disk)

theorem worldInterpreter_path {words : List (List UInt8)} {cmd : Fs.PathCommand}
    {path : List UInt8} {out : String × ℤ} {fs : Fs.State}
    (hwords : ∀ m : Memory s size H, interpreter o words m = pathCommand o cmd path m)
    (hexec : cmd.exec w.tick.getPath w.fs (cstring path) (o.scratch w.tick).name
      (o.scratch w.tick).dest (o.scratch w.tick).stack = .ok (out, fs)) :
    worldInterpreter o words w = .ok (out.2, { w.tick with fs := fs }.print out.1) := by
  have hfs : w.tick.fs = w.fs := rfl
  apply worldInterpreter_eq
  intro m hm
  rw [hwords, pathCommand]
  simp only [hm, hfs, hexec, bind, Except.bind]
  rfl

namespace View.Shows

theorem respond (h : v.Shows w) {words : List (List UInt8)} {out : String × ℤ}
    (hwords : ∀ m : Memory s size H, m.world = w.tick →
      interpreter o words m = .ok (respond out m)) :
    ∃ w', worldInterpreter o words w = .ok ((v.say out).1, w') ∧ (v.say out).2.Shows w' ∧
      w'.host = w.host := by
  refine ⟨w.tick.print out.1, worldInterpreter_eq fun m hm => ?_, h.tick.say out, rfl⟩
  rw [hwords m hm, Core.respond, hm]
  rfl

/-- A command on a path does to the view what its call does to the catalog. -/
theorem withPath (h : v.Shows w) {word : Word} {call : Fs.CString → ℤ × Fs.Catalog}
    {exec : Fs.CString → Exec (ℤ × Fs.Disk)} (hcall : ∀ p ∈ v.path word, ∃ d S,
      exec p = .ok ((call p).1, d) ∧ (call p).2.Depicts d S ∧
        v.catalog.Keeps (call p).2 w.fs.disk d) :
    ∃ out d, withPath w.getPath w.fs.disk (cstring word.bytes) exec = .ok (out, d) ∧
      (v.onPath word call).1 = out.2 ∧
      (v.onPath word call).2.Shows ({ w with fs := { w.fs with disk := d } }.print out.1) := by
  unfold Core.withPath View.onPath
  rw [h.path]
  cases hpath : v.path word with
  | none => exact ⟨_, _, rfl, rfl, h.say _⟩
  | some p =>
    dsimp only
    by_cases hvalid : (!Fs.isValidPath p) = true
    · rw [if_pos hvalid, if_pos hvalid]
      exact ⟨_, _, rfl, rfl, h.say _⟩
    · rw [if_neg hvalid, if_neg hvalid]
      obtain ⟨d, S, hexec, hdepicts, hkeeps⟩ := hcall p hpath
      simp only [hexec, bind, Except.bind]
      exact ⟨_, _, rfl, rfl, (h.withCatalog hdepicts hkeeps).say _⟩

/-- A command that is allowed does to the world what it does to the view. -/
theorem command (h : v.Shows w) {cmd : UserCommand} (hallowed : cmd.Allowed size v) :
    ∃ w', worldInterpreter o cmd.phrase.args w = .ok ((cmd.run v).1, w') ∧
      (cmd.run v).2.Shows w' ∧ w'.host = w.host := by
  cases cmd with
  | help => exact h.respond fun m _ => rfl
  | set name value hvalue =>
    refine ⟨_, worldInterpreter_eq fun m hm => ?_, h.tick.assign hallowed _, rfl⟩
    rw [UserCommand.interpreter_set, setCommand, hm]
    rfl
  | print name =>
    apply h.respond
    intro m hm
    rw [UserCommand.interpreter_print, hm, h.tick.value]
  | echo text =>
    apply h.respond
    intro m hm
    rw [UserCommand.interpreter_echo, hm, h.tick.echo]
  | mkdir path =>
    obtain ⟨S, hdisk⟩ := h.disk
    obtain ⟨out, d, hrun, hcode, hshows⟩ := h.tick.withPath fun p hp =>
      hdisk.create (hallowed p hp).1 (o.scratch w.tick).name (o.scratch w.tick).stack
        ((hallowed p hp).2 _ _)
    refine ⟨_, ?_, hshows, rfl⟩
    rw [UserCommand.run, hcode]
    apply worldInterpreter_path (UserCommand.interpreter_mkdir path)
    exact congrArg (· >>= fun r => pure (r.1, { w.fs with disk := r.2 })) hrun
  | rmdir path =>
    obtain ⟨S, hdisk⟩ := h.disk
    obtain ⟨out, d, hrun, hcode, hshows⟩ := h.tick.withPath fun p hp =>
      hdisk.delete (hallowed p hp) (o.scratch w.tick).name .directoryT
    refine ⟨_, ?_, hshows, rfl⟩
    rw [UserCommand.run, hcode]
    apply worldInterpreter_path (UserCommand.interpreter_rmdir path)
    exact congrArg (· >>= fun r => pure (r.1, { w.fs with disk := r.2 })) hrun
  | cd path =>
    obtain ⟨S, hdisk⟩ := h.disk
    -- `cd` refuses the characters itself; otherwise the path is allowed, and so leads somewhere.
    by_cases hvalid : (!Fs.isValidPath (cstring path.bytes)) = true
    · have hcd : Fs.cd w.fs (cstring path.bytes) (o.scratch w.tick).name (o.scratch w.tick).dest =
          .ok (Fs.badcommandNotAlphanum, w.fs) := if_pos hvalid
      rw [UserCommand.run, if_pos hvalid]
      exact ⟨_, worldInterpreter_path (UserCommand.interpreter_cd path) hcd, h.tick.say _, rfl⟩
    · obtain ⟨hshort, hfound⟩ := hallowed (by simpa using hvalid)
      obtain ⟨p, hp⟩ := Option.ne_none_iff_exists'.mp hfound
      obtain ⟨i, hx, hwalk, hinum, hdir⟩ := hdisk.lookup_found hshort hp (o.scratch w.tick).name
      have hchdir : Fs.fsChdir w.fs (cstring path.bytes) (o.scratch w.tick).name
          (o.scratch w.tick).dest = .ok (0, { w.fs with cwd := w.fs.disk.inode i }) := by
        rw [Fs.fsChdir, hx]
        exact if_neg (not_not.mpr hdir)
      have hcd : Fs.cd w.fs (cstring path.bytes) (o.scratch w.tick).name (o.scratch w.tick).dest =
          .ok (("", 0), { w.fs with cwd := w.fs.disk.inode i }) := by
        rw [Fs.cd, if_neg hvalid, hchdir]
        rfl
      have hshows : View.Shows { v with cwd := some p }
          { w.tick with fs := { w.fs with cwd := w.fs.disk.inode i } } := by
        refine ⟨h.unique, h.vars, ⟨S, hdisk⟩, fun q hq => ?_, h.printed⟩
        obtain rfl := Option.some.inj hq
        exact ⟨Fs.Catalog.mem_of_find hp, hdir, i, hinum, hwalk⟩
      rw [UserCommand.run, if_neg hvalid, hp]
      exact ⟨_, worldInterpreter_path (UserCommand.interpreter_cd path) hcd, hshows.say _, rfl⟩

theorem commands (h : v.Shows w) {cmds : List UserCommand} (hallowed : v.AllowedFor size cmds)
    (errorCode : ℤ) : ∃ code w', interpretAll (worldInterpreter o)
      ((cmds.map UserCommand.phrase).map Phrase.args) errorCode w = .ok (code, w') ∧
      (v.runAll cmds).Shows w' ∧ w'.host = w.host := by
  induction cmds generalizing v w errorCode with
  | nil => exact ⟨errorCode, w, rfl, h, rfl⟩
  | cons cmd cmds ih =>
    obtain ⟨w₁, hfirst, h₁, hhost₁⟩ := h.command (o := o) hallowed.1
    obtain ⟨code, w', hrest, h', hhost⟩ := ih h₁ hallowed.2 (cmd.run v).1
    refine ⟨code, w', ?_, h', hhost.trans hhost₁⟩
    rw [List.map_cons, List.map_cons, interpretAll, hfirst]
    exact hrest

end View.Shows

theorem View.allowedFor_append {cmds cmds' : List UserCommand} :
    v.AllowedFor size (cmds ++ cmds') ↔
      v.AllowedFor size cmds ∧ (v.runAll cmds).AllowedFor size cmds' := by
  induction cmds generalizing v with
  | nil => exact ⟨fun h => ⟨trivial, h⟩, And.right⟩
  | cons cmd cmds ih => exact (and_congr_right fun _ => ih).trans and_assoc.symm

theorem View.runAll_append (v : View) (cmds cmds' : List UserCommand) :
    v.runAll (cmds ++ cmds') = (v.runAll cmds).runAll cmds' :=
  List.foldl_append

theorem View.shows_init {d : Fs.Disk} (hboot : Fs.Booted d) (host : H) : View.init.Shows
    (⟨PicoShell.Memory.vstoreInit size, ⟨d, d.inode 0⟩, host, "", 0⟩ : World size H) := by
  have hget : (PicoShell.Memory.runSets size []).vstoreGet = PicoShell.Memory.assigned [] :=
    PicoShell.Memory.vstoreGet_runSets (Nat.zero_le _)
  have hnav := hboot.rootOnly.tree.nav
  refine ⟨PicoShell.Memory.unique_runSets size [], hget, ⟨_, Fs.Catalog.Depicts.init hboot⟩, ?_, rfl⟩
  intro p hp
  obtain rfl := Option.some.inj hp
  exact ⟨Fs.Catalog.init.names.root, hboot.rootOnly.type, 0, hnav.wf.inum 0 hnav.root, rfl⟩

end PicoShell.Core
