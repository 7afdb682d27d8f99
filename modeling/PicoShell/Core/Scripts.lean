import PicoShell.Core.Exits
import PicoShell.Core.Plain

namespace PicoShell.Core

open Scheduling

variable {s : Sizes} {size : ℕ} {H : Type} {o : Setting s size H} {m m' m₀ m₁ : Memory s size H}
  {inp policy : List UInt8} {names input : List (List UInt8)} {code : ℤ} {p : Policy}
  {files : String → Option (List (List UInt8))} {programs : List (Option String)}
  {c : Sched s (List UInt8) (World size H)}

/-- What plain lines do around the processes when they are typed one after the other. -/
def typeLines (o : Setting s size H) : List (List UInt8) → World size H → Exec (World size H)
  | [], w => .ok w
  | line :: lines, w => do
    let (_, w) ← worldLine o line w
    typeLines o lines w

theorem typeLines_cons {lines : List (List UInt8)} {w w' : World size H} :
    typeLines o (inp :: lines) w = .ok w' ↔
      ∃ code w₁, worldLine o inp w = .ok (code, w₁) ∧ typeLines o lines w₁ = .ok w' := by
  constructor
  · intro h
    obtain ⟨r, hline, hrest⟩ := Exec.bind_ok h
    exact ⟨r.1, r.2, hline, hrest⟩
  · rintro ⟨code, w₁, hline, hrest⟩
    rw [typeLines, hline]
    exact hrest

/-- Lines with opaque effects are accepted if and only if they can be typed. -/
theorem typeLines_iff {lines : List (List UInt8)} {w w' : World size H} :
    typeLines o lines w = .ok w' ↔ Accepts (plainEnv o) (Succeeds o) (lines.map some) w ∧
      replay (plainEnv o) (lines.map some) w = w' := by
  induction lines generalizing w with
  | nil => exact ⟨fun h => ⟨trivial, Except.ok.inj h⟩, fun h => congrArg Except.ok h.2⟩
  | cons line lines ih =>
    have hstep : ∀ {code w₁}, worldLine o line w = .ok (code, w₁) →
        ((plainEnv o).parseInput (some line) w).2 = w₁ := fun h => by simp only [plainEnv, h]
    rw [typeLines_cons, List.map_cons, replay, List.foldl_cons, ← replay]
    constructor
    · rintro ⟨code, w₁, hline, hrest⟩
      obtain ⟨haccepts, hreplay⟩ := ih.mp hrest
      refine ⟨⟨⟨line, _, rfl, hline⟩, ?_⟩, ?_⟩
      · rwa [hstep hline]
      · rwa [hstep hline]
    · rintro ⟨⟨⟨inp, ⟨code, w₁⟩, hinp, hline⟩, haccepts⟩, hreplay⟩
      obtain rfl := Option.some.inj hinp
      rw [hstep hline] at haccepts hreplay
      exact ⟨code, w₁, hline, ih.mpr ⟨haccepts, hreplay⟩⟩

/-- No uninitialised variable looks like the code that ends the shell. -/
def Setting.Initialised (o : Setting s size H) : Prop :=
  (∀ w, o.errorCode w ≠ -1) ∧ ∀ m, o.env.garbageCode m ≠ -1

theorem Process.Holds.ne {P : Process s size H} (h : P.Holds o code) (ho : o.Initialised) :
    code ≠ -1 := by
  cases P with
  | line m commands errorCode stack input =>
    obtain ⟨-, w, -, rfl⟩ := h
    exact ho.1 w
  | scheduler c commands stack input =>
    obtain ⟨p, m, -, rfl⟩ := h
    exact ho.2 m
  | prompt | exited => exact h.elim

namespace Process

/-- The code with which a line returns is none that ends the shell. -/
theorem evaluates_code (h : Evaluates o inp m m' code) (ho : o.Initialised) : code ≠ -1 := by
  obtain ⟨commands, hread, heval⟩ := h
  obtain ⟨f, hret, hsteps⟩ := heval.steps
  obtain rfl := eval_line_of_ret hret
  have hcoded : Coded o ((Focus.enter o m commands).process [] [])
      ((Focus.enter o m commands).process [] []) :=
    .inr ⟨_, .refl, .refl, rfl, m.world, rfl, rfl⟩
  have hend : Codes o _ (.line m' [] code [] []) code :=
    hcoded.reaches (reaches_of_steps (hsteps []))
  rcases hend with hcode | ⟨Q, -, -, hholds⟩
  · omega
  · exact hholds.ne ho

theorem reaches_prompt (h : Evaluates o inp m m' code) (ho : o.Initialised)
    (input : List (List UInt8)) :
    Relation.ReflTransGen (Goes o) (.prompt m (inp :: input)) (.prompt m' input) :=
  prompt_iff_evaluates.mpr ⟨code, h, evaluates_code h ho⟩

theorem reaches_typed_iff {lines : List (List UInt8)} (hplain : ∀ line ∈ lines, PlainLine line)
    (ho : o.Initialised) (m m' : Memory s size H) (input : List (List UInt8)) :
    Relation.ReflTransGen (Goes o) (.prompt m (lines ++ input)) (.prompt m' input) ↔
      ∃ w, typeLines o lines m.world = .ok w ∧ m' = { m with world := w } := by
  induction lines generalizing m with
  | nil =>
    constructor
    · intro h
      exact ⟨m.world, rfl, prompt_unique h⟩
    · rintro ⟨w, hw, rfl⟩
      rw [← Except.ok.inj hw]
      exact .refl
  | cons line lines ih =>
    obtain ⟨hline, hplain⟩ := List.forall_mem_cons.mp hplain
    constructor
    · intro h
      obtain ⟨m₁, code, heval, -, hrest⟩ := evaluates_first h (by simp)
      obtain ⟨w₁, hworld, rfl⟩ := (evaluates_plain hline).mp heval
      obtain ⟨w, hw, rfl⟩ := (ih hplain _).mp hrest
      exact ⟨w, typeLines_cons.mpr ⟨code, w₁, hworld, hw⟩, rfl⟩
    · rintro ⟨w, hw, rfl⟩
      obtain ⟨code, w₁, hworld, hrest⟩ := typeLines_cons.mp hw
      have heval : Evaluates o line m { m with world := w₁ } code :=
        (evaluates_plain hline).mpr ⟨w₁, hworld, rfl⟩
      exact (reaches_prompt heval ho (lines ++ input)).trans
        ((ih hplain { m with world := w₁ }).mpr ⟨w, hrest, rfl⟩)

end Process

/-- The line has one command, which executes these programs. -/
def IsExec (inp : List UInt8) (names : List (List UInt8)) (policy : List UInt8) : Prop :=
  ∃ cmd words, readCommands maxNumCommands inp [] = .ok [cmd] ∧ parseCommand cmd = .ok words ∧
    words.map chomp = ascii "exec" :: (names ++ [policy]) ∧ 0 < names.length ∧ names.length ≤ 3

theorem interpreter_exec {words : List (List UInt8)}
    (hwords : words.map chomp = ascii "exec" :: (names ++ [policy])) (hpos : 0 < names.length)
    (hle : names.length ≤ 3) (o : Setting s size H) (m : Memory s size H) :
    interpreter o words m = execCommand o names policy m := by
  have hlen : words.length = names.length + 2 := by
    rw [← List.length_map (f := chomp), hwords]
    simp
  unfold interpreter
  simp only [hwords, hlen]
  rw [if_neg (by omega), if_neg (by simp; omega)]
  simp only [List.getD_cons_zero, List.tail_cons, List.dropLast_concat]
  have hlast : (ascii "exec" :: (names ++ [policy])).getLastD [] = policy := by
    rw [← List.cons_append, List.getLastD_concat]
  -- it is none of the commands in front of it
  repeat rw [if_neg (by decide)]
  rw [if_pos trivial, if_neg (by omega), if_neg (by omega), hlast]

/-- The file exists, is not too long, and has plain lines only. -/
def PlainFile (contents : Option (List (List UInt8))) : Prop :=
  ∃ lines, contents = some lines ∧ lines ≠ [] ∧ lines.length ≤ maxLines ∧
    ∀ line ∈ lines, PlainLine line

/-- A scheduler on a queue of plain files comes to plain lines only. -/
theorem nextPlain_of_built (h : Built files programs m₀ m₁) (hexcl : Exclusive m₁)
    (hfiles : ∀ script ∈ programs.reduceOption, PlainFile (files script))
    (hsteps : Steps (plainEnv o) (fun _ => True) (schedule (plainEnv o) p m₁) c) :
    NextPlain c := by
  intro c' pcb i frame hnext
  obtain ⟨hrun, m, hfault, hfetch, rfl⟩ := Sched.next_line hnext
  obtain ⟨hexcl', hadv⟩ := h.run hexcl hsteps
  obtain ⟨hcons, hpcb⟩ := hadv.cons.of_running hrun
  have hq := hadv.progress.mem pcb hpcb
  obtain ⟨contents, hcontents, hscript, -⟩ := hsteps.fromFile (h.fromFile pcb hq)
  obtain ⟨lines, hlines, hne, hlen, hplain⟩ := hfiles _ (h.names ▸ List.mem_map_of_mem hq)
  obtain rfl := Option.some.inj (hcontents.symm.trans hlines)
  rw [List.take_of_length_le hlen] at hscript
  -- the process has a line left
  have hrests := hfault.rests pcb
  have hscriptlen := hadv.progress.length pcb hq
  have hlt : (c.machine.pcbs pcb).programCounter < (c.machine.pcbs pcb).script.length := by
    rcases hfetch.1 with haging | hpc
    · exact hadv.waiting haging pcb hpcb (hscript ▸ hne)
    · rw [hrests.programCounter, hrests.fileLength] at hpc
      have hproper : (c.machine.pcbs pcb).Proper c.policy := fun _ => hscript ▸ hne
      have := (hadv.progress.lines pcb hq hproper).2
      omega
  have hpage : (m.pcbs pcb).pageTable (m.currentPage pcb) = some frame := by
    rcases hfetch.2 with hpage | ⟨-, hout⟩
    · exact hpage
    · have := Nat.div_mul_le_self (m.pcbs pcb).programCounter s.frameSize
      rw [Machine.currentPage, hrests.fileLength] at hout
      rw [hrests.programCounter] at this hout
      omega
  have hmap := hadv.mapped.faults hcons (hexcl'.soundFault _ hadv.cons) hfault
  have hline := hmap.line (by rw [hfault.same.1]; exact hpcb) hpage
    (by rw [hrests.programCounter, hrests.script]; exact hlt)
  rw [hrests.programCounter, hrests.script, List.getElem?_eq_getElem hlt] at hline
  have hmem : (c.machine.pcbs pcb).script[(c.machine.pcbs pcb).programCounter] ∈ contents := by
    rw [← hscript]
    exact List.getElem_mem hlt
  refine ⟨_, ?_, hplain _ hmem⟩
  show m.memory (frame * s.frameSize + (m.pcbs pcb).programCounter % s.frameSize) = _
  rw [hrests.programCounter]
  exact hline

def fileLines (o : Setting s size H) (m : Memory s size H) (name : List UInt8) :
    List (List UInt8) :=
  (o.host.lines m.world.host (textOf name)).getD []

def programsOf (names : List (List UInt8)) : List (Option String) :=
  (names.map textOf).map some ++ List.replicate (maxNumPrograms - (names.map textOf).length) none

theorem reduceOption_programsOf (names : List (List UInt8)) :
    (programsOf names).reduceOption = names.map textOf := by
  rw [programsOf, List.reduceOption_append, List.reduceOption_replicate_none, List.append_nil]
  induction names with
  | nil => rfl
  | cons name names ih =>
    rw [List.map_cons, List.map_cons, List.reduceOption_cons_of_some, ih]

/-- A line with `exec` builds the queue and starts the scheduler. -/
theorem evaluates_exec (hline : IsExec inp names policy)
    (hpolicy : policyOf (textOf policy) = some p)
    (hfiles : ∀ name ∈ names, o.host.lines m.world.host (textOf name) ≠ none) :
    ∃ m₁, buildReadyQueue o.env (o.host.lines m.world.host) (programsOf names)
        { m with world := m.world.tick.tick } = .ok (0, m₁) ∧
      ∀ m' code, Evaluates o inp m m' code ↔
        (calls o).Eval (.scheduler (schedule (plainEnv o) p m₁) []) (m', code) := by
  obtain ⟨cmd, words, hread, hparse, hwords, hpos, hle⟩ := hline
  have hbuild : ∃ m₁, buildReadyQueue o.env (o.host.lines m.world.host) (programsOf names)
      { m with world := m.world.tick.tick } = .ok (0, m₁) := by
    apply buildReadyQueue_ok
    rw [reduceOption_programsOf]
    intro script hscript
    obtain ⟨name, hname, rfl⟩ := List.mem_map.mp hscript
    exact hfiles name hname
  obtain ⟨m₁, hbuild⟩ := hbuild
  have hinterpreter : interpreter o words { m with world := m.world.tick.tick } =
      .ok (.started (schedule o.env p m₁)) := by
    rw [interpreter_exec hwords hpos hle, execCommand, launch, execPrograms_ofOption,
      loadPrograms_ofOption]
    simp only [programsOf, World.tick] at hbuild
    simp only [World.tick, hbuild, hpolicy]
    rfl
  refine ⟨m₁, hbuild, fun m' code => ?_⟩
  have hgoto : (calls o).next (.enter o m [cmd]) =
      .goto (.scheduler (schedule o.env p m₁) []) := by
    simp only [calls, Focus.next, Focus.enter, hparse, hinterpreter]
  constructor
  · rintro ⟨commands, hread', heval⟩
    obtain rfl := Except.ok.inj (hread.symm.trans hread')
    exact (Calls.Machine.Eval.goto_iff hgoto).mp heval
  · exact fun heval => ⟨[cmd], hread, .goto hgoto heval⟩

/-- What a scheduler of plain files does to the shell: the processes are gone, and the rest is as
after a run with opaque lines, none of which has failed. -/
theorem evaluates_exec_iff (hcons : Consistent [] m) (hempty : m.queue = [])
    (hline : IsExec inp names policy) (hpolicy : policyOf (textOf policy) = some p)
    (hnames : (names.map textOf).Nodup)
    (hfiles : ∀ name ∈ names, PlainFile (o.host.lines m.world.host (textOf name))) :
    ∃ m₁, buildReadyQueue o.env (o.host.lines m.world.host) (programsOf names)
        { m with world := m.world.tick.tick } = .ok (0, m₁) ∧
      Built (o.host.lines m.world.host) (programsOf names)
        { m with world := m.world.tick.tick } m₁ ∧ Exclusive m₁ ∧
      m₁.world = m.world.tick.tick ∧ ∀ m' code, Evaluates o inp m m' code ↔
        ∃ c, Steps (plainEnv o) (Sched.Meets (Succeeds o)) (schedule (plainEnv o) p m₁) c ∧
          c.step (plainEnv o) = .ok none ∧ m' = c.machine ∧ code = c.errCode := by
  have hexist : ∀ name ∈ names, o.host.lines m.world.host (textOf name) ≠ none := by
    intro name hname
    obtain ⟨lines, hlines, -⟩ := hfiles name hname
    rw [hlines]
    exact Option.some_ne_none lines
  obtain ⟨m₁, hbuild, heval⟩ := evaluates_exec hline hpolicy hexist
  have hcons' := hcons.withWorld m.world.tick.tick
  have hbuilt := Built.of_consistent hcons' hempty hbuild
  have hexcl := Exclusive.of_consistent hcons' hempty
    (by rw [reduceOption_programsOf]; exact hnames) hbuild
  have hplain : ∀ c, Steps (plainEnv o) (fun _ => True) (schedule (plainEnv o) p m₁) c →
      NextPlain c := by
    intro c hsteps
    refine nextPlain_of_built hbuilt hexcl ?_ hsteps
    rw [reduceOption_programsOf]
    intro script hscript
    obtain ⟨name, hname, rfl⟩ := List.mem_map.mp hscript
    exact hfiles name hname
  refine ⟨m₁, hbuild, hbuilt, hexcl, buildReadyQueue_world hbuild, fun m' code => ?_⟩
  rw [heval, eval_scheduler_plain hplain]
  have hret : ∀ c : Sched s (List UInt8) (World size H),
      (calls o).next (.line c.machine [] c.errCode) = .ret (c.machine, c.errCode) := fun _ => rfl
  constructor
  · rintro ⟨c, hsteps, hreturn, h⟩
    obtain ⟨hm, hcode⟩ := Prod.mk.inj ((Calls.Machine.Eval.ret_iff (hret c)).mp h)
    exact ⟨c, hsteps, hreturn, hm, hcode⟩
  · rintro ⟨c, hsteps, hreturn, rfl, rfl⟩
    exact ⟨c, hsteps, hreturn, .ret (hret c)⟩

theorem plain_short {script : String}
    (hfiles : ∀ name ∈ names, PlainFile (files (textOf name)))
    (hscript : script ∈ (programsOf names).reduceOption) :
    ∃ contents, files script = some contents ∧ contents.length ≤ maxLines := by
  rw [reduceOption_programsOf] at hscript
  obtain ⟨name, hname, rfl⟩ := List.mem_map.mp hscript
  obtain ⟨lines, hlines, -, hlen, -⟩ := hfiles name hname
  exact ⟨lines, hlines, hlen⟩

theorem plain_fileLines
    (hfiles : ∀ name ∈ names, PlainFile (o.host.lines m.world.host (textOf name))) :
    ∀ line ∈ names.flatMap (fileLines o m), PlainLine line := by
  intro line hmem
  obtain ⟨name, hname, hmem⟩ := List.mem_flatMap.mp hmem
  obtain ⟨lines, hlines, -, -, hplain⟩ := hfiles name hname
  rw [fileLines, hlines] at hmem
  exact hplain line hmem

theorem Process.Reached.consistent {input : List (List UInt8)}
    (h : Process.Reached o (.prompt m input)) : Consistent [] m :=
  (h.nested (Process.alive_prompt m input)).cons

/-- A scheduler of the shell that has returned leaves no process. -/
theorem allocated_of_return (hbuilt : Built files programs m₀ m₁) (hexcl : Exclusive m₁)
    (hsteps : Steps (plainEnv o) (fun _ => True) (schedule (plainEnv o) p m₁) c)
    (hreturn : c.step (plainEnv o) = .ok none) : c.machine.allocated = [] := by
  obtain ⟨hidle, hqueue⟩ := Sched.step_none hreturn
  exact ((hbuilt.run hexcl hsteps).2.cons.of_idle hidle).allocated_nil hqueue

/-- What a scheduler of plain scripts does that comes to its end: what typing the lines does, in
the order in which it executes them. -/
theorem evaluates_returned {last : Sched s (List UInt8) (World size H)}
    {lines : List (List UInt8)} {w₀ : World size H}
    (heval : ∀ m' code, Evaluates o inp m m' code ↔
      ∃ c, Steps (plainEnv o) (Sched.Meets (Succeeds o)) (schedule (plainEnv o) p m₁) c ∧
        c.step (plainEnv o) = .ok none ∧ m' = c.machine ∧ code = c.errCode)
    (hlast : Steps (plainEnv o) (fun _ => True) (schedule (plainEnv o) p m₁) last)
    (hreturn : last.step (plainEnv o) = .ok none) (halloc : last.machine.allocated = [])
    (hreplay : last.machine.world = replay (plainEnv o) (lines.map some) w₀)
    (haccepts : Steps (plainEnv o) (Sched.Meets (Succeeds o)) (schedule (plainEnv o) p m₁) last ↔
      Accepts (plainEnv o) (Succeeds o) (lines.map some) w₀) (w : World size H) :
    (∃ m' code, Evaluates o inp m m' code ∧ m'.allocated = [] ∧ m'.world = w) ↔
      typeLines o lines w₀ = .ok w := by
  rw [typeLines_iff]
  constructor
  · rintro ⟨m', code, hevaluates, -, rfl⟩
    obtain ⟨c, hsteps, hend, rfl, -⟩ := (heval m' code).mp hevaluates
    -- there is one run, and it has one end
    obtain rfl := hsteps.weaken.end_unique hlast hend hreturn
    exact ⟨haccepts.mp hsteps, hreplay.symm⟩
  · rintro ⟨hall, rfl⟩
    exact ⟨last.machine, last.errCode,
      (heval _ _).mpr ⟨last, haccepts.mpr hall, hreturn, rfl, rfl⟩, halloc, hreplay⟩

/-- What `exec` of plain scripts does under `FCFS`: what typing their lines does. -/
theorem evaluates_fcfs (hcons : Consistent [] m) (hempty : m.queue = [])
    (hline : IsExec inp names policy) (hpolicy : textOf policy = "FCFS")
    (hnames : (names.map textOf).Nodup)
    (hfiles : ∀ name ∈ names, PlainFile (o.host.lines m.world.host (textOf name)))
    (w : World size H) : (∃ m' code, Evaluates o inp m m' code ∧ m'.allocated = [] ∧ m'.world = w) ↔
      typeLines o (names.flatMap (fileLines o m)) m.world.tick.tick = .ok w := by
  have hfcfs : policyOf (textOf policy) = some .fcfs := by
    rw [hpolicy]
    rfl
  obtain ⟨m₁, -, hbuilt, hexcl, hworld, heval⟩ :=
    evaluates_exec_iff hcons hempty hline hfcfs hnames hfiles
  obtain ⟨last, hlast, hreturn, hreplay, haccepts⟩ :=
    hbuilt.one_by_one (plainEnv o) hexcl fun _ hname => plain_short hfiles hname
  rw [reduceOption_programsOf, List.flatMap_map, hworld] at hreplay haccepts
  exact evaluates_returned heval hlast hreturn (allocated_of_return hbuilt hexcl hlast hreturn)
    hreplay (haccepts _) w

/-- Lines that do what a line does get the shell to its next prompt if and only if the line does. -/
theorem prompt_iff_typed {lines : List (List UInt8)} (hplain : ∀ line ∈ lines, PlainLine line)
    (ho : o.Initialised) {w : World size H}
    (htyped : (∃ m' code, Evaluates o inp m m' code ∧ m'.allocated = [] ∧ m'.world = w) ↔
      typeLines o lines m.world.tick.tick = .ok w) :
    (∃ m', Relation.ReflTransGen (Process.Goes o) (.prompt m (inp :: input)) (.prompt m' input) ∧
      m'.allocated = [] ∧ m'.world = w) ↔
    Relation.ReflTransGen (Process.Goes o)
      (.prompt { m with world := m.world.tick.tick } (lines ++ input))
      (.prompt { m with world := w } input) := by
  rw [Process.reaches_typed_iff hplain ho]
  constructor
  · rintro ⟨m', hreach, hworld⟩
    obtain ⟨code, heval, -⟩ := Process.prompt_iff_evaluates.mp hreach
    exact ⟨w, htyped.mp ⟨m', code, heval, hworld⟩, rfl⟩
  · rintro ⟨w', hw, heq⟩
    have hww : w = w' := congrArg Machine.world heq
    rw [← hww] at hw
    obtain ⟨m', code, heval, hworld⟩ := htyped.mpr hw
    exact ⟨m', Process.reaches_prompt heval ho input, hworld⟩

def helps (_ : String) : Option (List (List UInt8)) := some [ascii "help"]

theorem plainFile_helps (names : List (List UInt8)) :
    ∀ name ∈ names, PlainFile (helps (textOf name)) := by
  have hplain : PlainLine (ascii "help") := by decide
  exact fun _ _ => ⟨[ascii "help"], rfl, List.cons_ne_nil _ _, by decide,
    fun _ hline => List.mem_singleton.mp hline ▸ hplain⟩

theorem isExec_helps : IsExec (ascii "exec a b FCFS") [ascii "a", ascii "b"] (ascii "FCFS") :=
  ⟨ascii "exec a b FCFS", [ascii "exec", ascii "a", ascii "b", ascii "FCFS"], by decide, by decide,
    by decide, by decide, by decide⟩

/-- The memory of a shell that waits at its prompt and has no line left. -/
def Process.waits : Process s size H → Option (Memory s size H)
  | .prompt m [] => some m
  | _ => none

theorem Process.prompt_of_waits {P : Process s size H} (h : P.waits = some m) :
    P = .prompt m [] := by
  unfold Process.waits at h
  split at h
  · rw [Option.some.inj h]
  · cases h

end PicoShell.Core
