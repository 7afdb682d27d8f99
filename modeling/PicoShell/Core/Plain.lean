import PicoShell.Core.Calls
import PicoShell.Scheduling.Interleaving

/-! Apart from `run`, `exec` and `quit` no command looks at the processes.  When the lines of all
programs are made of such commands, the schedulers of the shell do what they do with opaque lines.
-/

namespace PicoShell.Core

open Scheduling

variable {s : Sizes} {size : ℕ} {H : Type} {o : Setting s size H} {m m' : Memory s size H}
  {words : List (List UInt8)} {code : ℤ}

def Plain (words : List (List UInt8)) : Prop :=
  (words.map chomp).getD 0 [] ∉ [ascii "quit", ascii "run", ascii "exec"]

instance (words : List (List UInt8)) : Decidable (Plain words) := inferInstanceAs (Decidable (_ ∉ _))

/-- A command returns what a function of the world says, and changes nothing else. -/
def Uniform (x : Memory s size H → Exec (Outcome s size H)) : Prop :=
  ∃ g : World size H → Exec (ℤ × World size H), ∀ m,
    x m = (fun r => .returned r.1 { m with world := r.2 }) <$> g m.world

namespace Uniform

theorem ite {p : Prop} [Decidable p] {x y : Memory s size H → Exec (Outcome s size H)}
    (hx : p → Uniform x) (hy : ¬ p → Uniform y) : Uniform fun m => if p then x m else y m := by
  by_cases hp : p
  · simp only [if_pos hp]
    exact hx hp
  · simp only [if_neg hp]
    exact hy hp

theorem respond (out : World size H → String × ℤ) :
    Uniform fun m : Memory s size H => .ok (respond (out m.world) m) :=
  ⟨fun w => .ok ((out w).2, w.print (out w).1), fun _ => rfl⟩

theorem setCommand (name : List UInt8) (x : Exec (List UInt8)) :
    Uniform fun m : Memory s size H => do return setCommand name (← x) m := by
  refine ⟨fun w => do
    let value ← x
    return ((Memory.set w.varTable (textOf name) (textOf value)).1,
      { w with varTable := (Memory.set w.varTable (textOf name) (textOf value)).2 }), fun m => ?_⟩
  cases x with
  | error e => rfl
  | ok value => rfl

theorem pathCommand (o : Setting s size H) (cmd : Fs.PathCommand) (path : List UInt8) :
    Uniform (pathCommand o cmd path) := by
  refine ⟨fun w =>
    (fun r => (r.1.2, World.print { w with fs := r.2 } r.1.1)) <$>
      cmd.exec w.getPath w.fs (cstring path) (o.scratch w).name (o.scratch w).dest
        (o.scratch w).stack, fun m => ?_⟩
  unfold Core.pathCommand
  simp only
  cases cmd.exec m.world.getPath m.world.fs (cstring path) (o.scratch m.world).name
      (o.scratch m.world).dest (o.scratch m.world).stack with
  | error e => rfl
  | ok r => rfl

theorem ls (o : Setting s size H) : Uniform fun m => .ok (ls o m) :=
  ⟨fun w => .ok (0, { w with host := (o.host.listing w.host).2 }.print (o.host.listing w.host).1),
    fun _ => rfl⟩

theorem touch (o : Setting s size H) (filename : List UInt8) :
    Uniform fun m => .ok (touch o filename m) := by
  unfold Core.touch
  by_cases hvalid : (!Fs.isValidPath (cstring filename)) = true
  · simp only [if_pos hvalid]
    exact respond fun _ => Fs.badcommandNotAlphanum
  · simp only [if_neg hvalid]
    refine ⟨fun w => .ok (?_, ?_), fun m => ?_⟩
    · exact (if (o.host.create w.host filename).1 then ("", 0) else Fs.badCommandErrorOccurred).2
    · exact { w with host := (o.host.create w.host filename).2 }.print
        (if (o.host.create w.host filename).1 then ("", 0) else Fs.badCommandErrorOccurred).1
    · rfl

theorem ffork (o : Setting s size H) (args : List (List UInt8)) :
    Uniform fun m => .ok (ffork o args m) := by
  refine ⟨fun w =>
    let w' := { w with host := (o.host.spawn w.host args).2.2 }.print (o.host.spawn w.host args).2.1
    .ok ((o.host.spawn w.host args).1.elim
      (Fs.badCommandErrorOccurred.2, w'.print Fs.badCommandErrorOccurred.1)
      fun status => (status.toNat, w')), fun m => ?_⟩
  unfold Core.ffork
  dsimp only
  cases (o.host.spawn m.world.host args).1 with
  | none => rfl
  | some status => rfl

end Uniform

/-- A plain command leaves the processes, the queue and the frames alone, and does not look at
them. -/
theorem interpreter_uniform (o : Setting s size H) (h : Plain words) : Uniform (interpreter o words) := by
  simp only [Plain, List.mem_cons, List.not_mem_nil, or_false, not_or] at h
  obtain ⟨hquit, hrun, hexec⟩ := h
  unfold interpreter
  dsimp only
  repeat' refine Uniform.ite (fun _ => ?_) fun _ => ?_
  all_goals first
    | exact Uniform.respond fun _ => _
    | exact Uniform.respond fun w => Memory.print w.varTable _
    | exact Uniform.respond fun w => Memory.echo w.varTable _
    | exact Uniform.setCommand _ _
    | exact Uniform.pathCommand o _ _
    | exact Uniform.touch o _
    | exact Uniform.ls o
    | exact Uniform.ffork o _
    | exact absurd (by assumption) hquit
    | exact absurd (by assumption) hrun
    | exact absurd (by assumption) hexec

/-- What a plain command does to the world, and its code. -/
def worldInterpreter (o : Setting s size H) (words : List (List UInt8)) (w : World size H) :
    Exec (ℤ × World size H) :=
  match interpreter o words (memInit (fun _ => Machine.newPCB 0 "" []) w.tick) with
  | .error e => .error e
  | .ok (.returned code m) => .ok (code, m.world)
  | .ok (.started _) => .error .fuel
  | .ok (.exited _) => .error .fuel

theorem interpreter_plain (o : Setting s size H) (h : Plain words) (m : Memory s size H) :
    interpreter o words { m with world := m.world.tick } =
      (fun r => .returned r.1 { m with world := r.2 }) <$> worldInterpreter o words m.world := by
  obtain ⟨g, hg⟩ := interpreter_uniform o h
  have hworld : worldInterpreter o words m.world = g m.world.tick := by
    unfold worldInterpreter
    rw [hg]
    have hstart : (memInit (fun _ => Machine.newPCB 0 "" []) m.world.tick :
        Memory s size H).world = m.world.tick := rfl
    rw [hstart]
    cases g m.world.tick with
    | error e => rfl
    | ok r => rfl
  rw [hg, hworld]

def PlainLine (inp : List UInt8) : Prop :=
  ∀ cmd ∈ (Fields.runs semicolon inp).take maxNumCommands, ∀ words ∈ (parseCommand cmd).toOption,
    Plain words

instance (inp : List UInt8) : Decidable (PlainLine inp) :=
  inferInstanceAs (Decidable (∀ cmd ∈ _, ∀ words ∈ (parseCommand cmd).toOption, Plain words))

def worldLine (o : Setting s size H) (inp : List UInt8) (w : World size H) :
    Exec (ℤ × World size H) :=
  parseInput (worldInterpreter o) (o.errorCode w) inp w.tick

theorem eval_plain {commands : List (List UInt8)} {errorCode : ℤ} {r : Memory s size H × ℤ}
    (h : ∀ cmd ∈ commands, ∀ words ∈ (parseCommand cmd).toOption, Plain words) :
    (calls o).Eval (.line m commands errorCode) r ↔
      ∃ w, runCommands (worldInterpreter o) commands errorCode m.world = .ok (r.2, w) ∧
        r.1 = { m with world := w } := by
  induction commands generalizing m errorCode with
  | nil =>
    have hret : (calls o).next (.line m [] errorCode) = .ret (m, errorCode) := rfl
    rw [Calls.Machine.Eval.ret_iff hret]
    constructor
    · rintro rfl
      exact ⟨m.world, rfl, rfl⟩
    · rintro ⟨w, hrun, hr⟩
      obtain ⟨hcode, rfl⟩ := Exec.ok_inj hrun
      exact Prod.ext hr hcode.symm
  | cons cmd commands ih =>
    obtain ⟨hcmd, hcommands⟩ := List.forall_mem_cons.mp h
    -- A command that fails leaves both sides without a result.
    have hstuck : (calls o).next (.line m (cmd :: commands) errorCode) = .stop →
        (∀ r', runCommands (worldInterpreter o) (cmd :: commands) errorCode m.world ≠ .ok r') →
        ((calls o).Eval (.line m (cmd :: commands) errorCode) r ↔
          ∃ w, runCommands (worldInterpreter o) (cmd :: commands) errorCode m.world = .ok (r.2, w) ∧
            r.1 = { m with world := w }) := by
      intro hstop hfail
      exact ⟨fun heval => absurd heval (Calls.Machine.Eval.not_stop hstop),
        fun ⟨w, hrun, _⟩ => absurd hrun (hfail _)⟩
    cases hwords : parseCommand cmd with
    | error e =>
      apply hstuck
      · simp only [calls, Focus.next, hwords]
      · intro r' hr
        rw [runCommands, hwords] at hr
        cases hr
    | ok words =>
      have hplain : Plain words := hcmd words (by rw [hwords]; rfl)
      have hinterpreter := interpreter_plain o hplain m
      cases hworld : worldInterpreter o words m.world with
      | error e =>
        rw [hworld] at hinterpreter
        apply hstuck
        · simp only [calls, Focus.next, hwords, hinterpreter]
          rfl
        · intro r' hr
          rw [runCommands, hwords] at hr
          simp only [bind, Except.bind, hworld] at hr
          cases hr
      | ok x =>
        rw [hworld] at hinterpreter
        have hgoto : (calls o).next (.line m (cmd :: commands) errorCode) =
            .goto (.line { m with world := x.2 } commands x.1) := by
          simp only [calls, Focus.next, hwords, hinterpreter]
          rfl
        rw [Calls.Machine.Eval.goto_iff hgoto, ih hcommands, runCommands, hwords]
        simp only [bind, Except.bind, hworld]

theorem evaluates_plain {inp : List UInt8} (h : PlainLine inp) : Evaluates o inp m m' code ↔
    ∃ w, worldLine o inp m.world = .ok (code, w) ∧ m' = { m with world := w } := by
  unfold Evaluates worldLine parseInput
  rw [readCommands_line]
  constructor
  · rintro ⟨commands, hread, heval⟩
    obtain rfl := Except.ok.inj hread
    exact (eval_plain h).mp heval
  · intro hrun
    exact ⟨_, rfl, (eval_plain h).mpr hrun⟩

/-- The environment of the schedulers when lines are plain. -/
def plainEnv (o : Setting s size H) : Env s (List UInt8) (World size H) :=
  { o.env with
    parseInput := fun value w =>
      match value with
      | none => (0, w)
      | some inp =>
        match worldLine o inp w with
        | .error _ => (0, w)
        | .ok r => r }

/-- The line that the scheduler comes to next, if it does, is plain. -/
def NextPlain (c : Sched s (List UInt8) (World size H)) : Prop :=
  ∀ c' pcb i frame, c.next = .ok (.line c' pcb i frame) →
    ∃ inp, c'.lineIn pcb frame = some inp ∧ PlainLine inp

def Succeeds (o : Setting s size H) (value : Option (List UInt8)) (w : World size H) : Prop :=
  ∃ inp r, value = some inp ∧ worldLine o inp w = .ok r

variable {c c' : Sched s (List UInt8) (World size H)} {commands : List (List UInt8)}
  {r : Memory s size H × ℤ}

/-- In front of a plain line the scheduler of the shell goes on like one with opaque lines. -/
theorem eval_step (hplain : NextPlain c) (hmeets : c.Meets (Succeeds o))
    (hstep : c.step (plainEnv o) = .ok (some c')) :
    (calls o).Eval (.scheduler c commands) r ↔ (calls o).Eval (.scheduler c' commands) r := by
  rw [Sched.step_eq_next] at hstep
  obtain ⟨x, hnext, hafter⟩ := Exec.map_ok hstep
  cases x with
  | ret => cases hafter
  | goto c₁ =>
    obtain rfl := Option.some.inj hafter
    apply Calls.Machine.Eval.goto_iff
    simp only [calls, Focus.next, hnext]
  | line c₁ pcb i frame =>
    obtain ⟨inp, hline, hinp⟩ := hplain c₁ pcb i frame hnext
    obtain ⟨inp', ⟨code, w⟩, hline', hworld⟩ := hmeets c₁ pcb i frame hnext
    obtain rfl := Option.some.inj (hline.symm.trans hline')
    have hcall : (calls o).next (.scheduler c commands) =
        .call (.enter o (c₁.machine.accessFrame frame)
          ((Fields.runs semicolon inp).take maxNumCommands)) ⟨c₁, pcb, i, frame, commands⟩ := by
      simp only [calls, Focus.next, hnext, hline, commandsOf, readCommands_line]
    have hinner : Evaluates o inp (c₁.machine.accessFrame frame)
        { c₁.machine.accessFrame frame with world := w } code :=
      (evaluates_plain hinp).mpr ⟨w, hworld, rfl⟩
    obtain ⟨inner, hread, hinner⟩ := hinner
    rw [readCommands_line] at hread
    obtain rfl := Except.ok.inj hread
    have hafter : some c' = some (c₁.resume pcb i frame code
        { c₁.machine.accessFrame frame with world := w }) := by
      rw [← hafter]
      simp only [Next.after, plainEnv, hline, hworld]
    rw [Calls.Machine.Eval.call_iff hcall, Option.some.inj hafter]
    constructor
    · rintro ⟨r', hr', hrest⟩
      rwa [hr'.unique hinner] at hrest
    · exact fun hrest => ⟨_, hinner, hrest⟩

theorem eval_return {env : Env s (List UInt8) (World size H)} (hreturn : c.step env = .ok none) :
    (calls o).Eval (.scheduler c commands) r ↔
      (calls o).Eval (.line c.machine commands c.errCode) r := by
  rw [Sched.step_eq_next] at hreturn
  obtain ⟨x, hnext, hafter⟩ := Exec.map_ok hreturn
  cases x with
  | ret =>
    apply Calls.Machine.Eval.goto_iff
    simp only [calls, Focus.next, hnext]
  | goto c₁ => cases hafter
  | line c₁ pcb i frame => cases hafter

theorem eval_steps (hplain : ∀ c₁, Steps (plainEnv o) (fun _ => True) c c₁ → NextPlain c₁)
    (h : Steps (plainEnv o) (Sched.Meets (Succeeds o)) c c') :
    (calls o).Eval (.scheduler c commands) r ↔ (calls o).Eval (.scheduler c' commands) r := by
  induction h with
  | refl => exact Iff.rfl
  | step hbefore hmeets hstep ih => exact ih.trans (eval_step (hplain _ hbefore.weaken) hmeets hstep)

/-- A scheduler of the shell that returns does so at the end of a run with opaque lines, none of
which has failed. -/
theorem steps_of_eval (hplain : ∀ c₁, Steps (plainEnv o) (fun _ => True) c c₁ → NextPlain c₁)
    (h : (calls o).Eval (.scheduler c commands) r) :
    ∃ c', Steps (plainEnv o) (Sched.Meets (Succeeds o)) c c' ∧
      c'.step (plainEnv o) = .ok none := by
  generalize hf : Focus.scheduler c commands = f at h
  induction h generalizing c with
  | ret hnext =>
    rw [← hf] at hnext
    cases Process.eval_line_of_ret hnext
  | @goto f f' r hnext hrest ih =>
    rw [← hf] at hnext
    cases hx : c.next with
    | error e => simp [calls, Focus.next, hx] at hnext
    | ok x =>
      have hstep := Sched.step_eq_next (plainEnv o) c
      rw [hx] at hstep
      cases x with
      | ret => exact ⟨c, .refl, hstep⟩
      | goto c₁ =>
        simp only [calls, Focus.next, hx] at hnext
        have hmeets : c.Meets (Succeeds o) := fun _ _ _ _ hline => by cases hx.symm.trans hline
        have hfirst : Steps (plainEnv o) (Sched.Meets (Succeeds o)) c c₁ := .step .refl hmeets hstep
        obtain ⟨c', hsteps, hreturn⟩ :=
          ih (fun c₂ h₂ => hplain c₂ (hfirst.weaken.trans h₂)) (Calls.Action.goto.inj hnext)
        exact ⟨c', hfirst.trans hsteps, hreturn⟩
      | line c₁ pcb i frame =>
        obtain ⟨inp, hline, -⟩ := hplain c .refl c₁ pcb i frame hx
        simp [calls, Focus.next, hx, hline, commandsOf, readCommands_line] at hnext
  | @call f f' k r r' hnext hinner hrest ihinner ihrest =>
    rw [← hf] at hnext
    cases hx : c.next with
    | error e => simp [calls, Focus.next, hx] at hnext
    | ok x =>
      cases x with
      | ret => simp [calls, Focus.next, hx] at hnext
      | goto c₁ => simp [calls, Focus.next, hx] at hnext
      | line c₁ pcb i frame =>
        obtain ⟨inp, hline, hinp⟩ := hplain c .refl c₁ pcb i frame hx
        simp only [calls, Focus.next, hx, hline, commandsOf, readCommands_line] at hnext
        obtain ⟨rfl, rfl⟩ := Calls.Action.call.inj hnext
        -- the line returns, so it has not failed, and leaves what it leaves with opaque lines
        have heval : Evaluates o inp (c₁.machine.accessFrame frame) r'.1 r'.2 :=
          ⟨_, readCommands_line inp, hinner⟩
        obtain ⟨w, hworld, hr⟩ := (evaluates_plain hinp).mp heval
        have hmeets : c.Meets (Succeeds o) := by
          intro c₂ q j frame' hline'
          obtain ⟨rfl, rfl, -, rfl⟩ := Next.line.inj (Except.ok.inj (hx.symm.trans hline'))
          exact ⟨inp, _, hline, hworld⟩
        have hstep : c.step (plainEnv o) = .ok (some (c₁.resume pcb i frame r'.2 r'.1)) := by
          rw [Sched.step_eq_next, hx, hr]
          show Except.ok (Next.after (plainEnv o) (.line c₁ pcb i frame)) = _
          have hworld' : worldLine o inp c₁.machine.world = .ok (r'.2, w) := hworld
          simp only [Next.after, plainEnv, hline, hworld']
        have hfirst : Steps (plainEnv o) (Sched.Meets (Succeeds o)) c _ :=
          .step .refl hmeets hstep
        obtain ⟨c', hsteps, hreturn⟩ :=
          ihrest (fun c₂ h₂ => hplain c₂ (hfirst.weaken.trans h₂)) rfl
        exact ⟨c', hfirst.trans hsteps, hreturn⟩

/-- With plain programs a scheduler of the shell does what one with opaque lines does, as long as no
line fails. -/
theorem eval_scheduler_plain
    (hplain : ∀ c₁, Steps (plainEnv o) (fun _ => True) c c₁ → NextPlain c₁) :
    (calls o).Eval (.scheduler c commands) r ↔
      ∃ c', Steps (plainEnv o) (Sched.Meets (Succeeds o)) c c' ∧ c'.step (plainEnv o) = .ok none ∧
        (calls o).Eval (.line c'.machine commands c'.errCode) r := by
  constructor
  · intro h
    obtain ⟨c', hsteps, hreturn⟩ := steps_of_eval hplain h
    exact ⟨c', hsteps, hreturn, (eval_return hreturn).mp ((eval_steps hplain hsteps).mp h)⟩
  · rintro ⟨c', hsteps, hreturn, h⟩
    exact (eval_steps hplain hsteps).mpr ((eval_return hreturn).mpr h)

end PicoShell.Core
