import PicoShell.Core.Nested

namespace PicoShell.Core

open Scheduling

variable {s : Sizes} {size : ℕ} {H : Type} {o : Setting s size H} {m m' : Memory s size H}
  {P P' : Process s size H}

/-- The variable of a scheduler keeps its code up to another iteration. -/
theorem next_goto_errCode {c c' : Sched s (List UInt8) (World size H)}
    (h : c.next = .ok (.goto c')) : c'.errCode = c.errCode := by
  have hcode := Sched.next_errCode h
  rw [← Next.goto.inj hcode]
  rfl

theorem resume_errCode (c : Sched s (List UInt8) (World size H)) (pcb i : ℕ)
    (frame : Fin s.numFrames) (code : ℤ) (m : Memory s size H) :
    (c.resume pcb i frame code m).errCode = code := by
  unfold Sched.resume
  cases c.policy with
  | fcfs => rfl
  | sjf => rfl
  | rr timeSlice => rfl
  | aging =>
    simp only [Sched.agingEndTurn]
    split_ifs
    · rfl
    · rfl

namespace Process

/-- A call was just started, and its uninitialised variable holds this value. -/
def Holds (o : Setting s size H) : Process s size H → ℤ → Prop
  | line m _ errorCode _ _, code => errorCode = code ∧ ∃ w, m.world = w.tick ∧ o.errorCode w = code
  | scheduler c _ _ _, code => ∃ p m, c = schedule o.env p m ∧ o.env.garbageCode m = code
  | _, _ => False

/-- A code of a command, or what a variable held when its call was started behind `P₀`. -/
def Codes (o : Setting s size H) (P₀ P : Process s size H) (code : ℤ) : Prop :=
  0 ≤ code ∨ ∃ Q, Relation.ReflTransGen (Goes o) P₀ Q ∧ Relation.ReflTransGen (Goes o) Q P ∧
    Q.Holds o code

/-- The code that a call would return now, or that the shell has returned, is one of these. -/
def Coded (o : Setting s size H) (P₀ : Process s size H) : Process s size H → Prop
  | prompt _ _ => True
  | line m commands errorCode stack input =>
    Codes o P₀ (.line m commands errorCode stack input) errorCode
  | scheduler c commands stack input => Codes o P₀ (.scheduler c commands stack input) c.errCode
  | exited m code => code = 0 ∨ code = 99 ∧ Codes o P₀ (.exited m code) (-1)

variable {P₀ : Process s size H} {code : ℤ}

theorem Codes.goes (h : Codes o P₀ P code) (hgoes : Goes o P P') : Codes o P₀ P' code := by
  rcases h with hcode | ⟨Q, hbefore, hafter, hholds⟩
  · exact .inl hcode
  · exact .inr ⟨Q, hbefore, hafter.tail hgoes, hholds⟩

theorem coded_openLine {inp : Option (List UInt8)} {stack : List (Level s size H)}
    {input : List (List UInt8)} (h : openLine o inp m stack input = .ok P)
    (hrun : Relation.ReflTransGen (Goes o) P₀ P) : Coded o P₀ P := by
  obtain ⟨commands, -, rfl⟩ := openLine_ok h
  exact .inr ⟨_, hrun, .refl, rfl, m.world, rfl, rfl⟩

theorem coded_command {cmd : List UInt8} {commands input : List (List UInt8)}
    {stack : List (Level s size H)} (h : command o m cmd commands stack input = .ok P)
    (hrun : Relation.ReflTransGen (Goes o) P₀ P) : Coded o P₀ P := by
  obtain ⟨words, -, h⟩ := Exec.bind_ok h
  obtain ⟨x, hinterpreter, h⟩ := Exec.bind_ok h
  cases interpreter_answers hinterpreter with
  | returned w hcode hadds =>
    obtain rfl := Except.ok.inj h
    exact .inl hcode
  | @started m' p hadds =>
    obtain rfl := Except.ok.inj h
    exact .inr ⟨_, hrun, .refl, p, m', rfl, rfl⟩
  | exited w =>
    obtain rfl := Except.ok.inj h
    exact .inl rfl

theorem coded_endLine {errorCode : ℤ} {input : List (List UInt8)} {stack : List (Level s size H)}
    (h : Codes o P₀ (endLine m errorCode input stack) errorCode) :
    Coded o P₀ (endLine m errorCode input stack) := by
  cases stack with
  | nil =>
    unfold endLine at h ⊢
    split_ifs at h ⊢ with hcode
    · exact .inr ⟨rfl, hcode ▸ h⟩
    · trivial
  | cons l stack =>
    show Codes o P₀ _ (l.sched.resume l.pcb l.i l.frame errorCode m).errCode
    rw [resume_errCode]
    exact h

theorem Coded.iterate {c : Sched s (List UInt8) (World size H)} {commands input : List (List UInt8)}
    {stack : List (Level s size H)} (h : Coded o P₀ (.scheduler c commands stack input))
    (hiterate : iterate o c commands stack input = .ok P)
    (hgoes : Goes o (.scheduler c commands stack input) P)
    (hrun : Relation.ReflTransGen (Goes o) P₀ P) : Coded o P₀ P := by
  have hnow := Codes.goes h hgoes
  obtain ⟨x, hnext, hx⟩ := Exec.bind_ok hiterate
  cases x with
  | ret =>
    obtain rfl := Except.ok.inj hx
    exact hnow
  | goto c' =>
    obtain rfl := Except.ok.inj hx
    show Codes o P₀ _ c'.errCode
    rw [next_goto_errCode hnext]
    exact hnow
  | line c' pcb i frame => exact coded_openLine hx hrun

theorem Coded.goes (h : Coded o P₀ P) (hrun : Relation.ReflTransGen (Goes o) P₀ P)
    (hgoes : Goes o P P') : Coded o P₀ P' := by
  have hrun' := hrun.tail hgoes
  have hstep := hgoes
  unfold Goes at hstep
  cases P with
  | prompt m input =>
    cases input with
    | nil =>
      obtain rfl := Option.some.inj (Except.ok.inj hstep)
      exact .inl rfl
    | cons inp input =>
      obtain ⟨P₁, hopen, hP⟩ := Exec.map_ok hstep
      obtain rfl := Option.some.inj hP
      exact coded_openLine hopen hrun'
  | line m commands code stack input =>
    cases commands with
    | nil =>
      obtain rfl := Option.some.inj (Except.ok.inj hstep)
      exact coded_endLine (Codes.goes h hgoes)
    | cons cmd commands =>
      obtain ⟨P₁, hcommand, hP⟩ := Exec.map_ok hstep
      obtain rfl := Option.some.inj hP
      exact coded_command hcommand hrun'
  | scheduler c commands stack input =>
    obtain ⟨P₁, hiterate, hP⟩ := Exec.map_ok hstep
    obtain rfl := Option.some.inj hP
    exact h.iterate hiterate hgoes hrun'
  | exited m code => cases Except.ok.inj hstep

theorem Coded.reaches (h : Coded o P₀ P₀) (hrun : Relation.ReflTransGen (Goes o) P₀ P) :
    Coded o P₀ P := by
  induction hrun with
  | refl => exact h
  | tail hbefore hgoes ih => exact ih.goes hbefore hgoes

/-- From its first prompt on the shell exits with `0`, unless a call on the way to the exit was
started with `-1` in its uninitialised variable: no command, whatever it is and wherever it is
executed, ends it with an error. -/
theorem exit_code {m : Memory s size H} {code : ℤ} (h : Reached o (.exited m code)) :
    code = 0 ∨ code = 99 ∧ ∃ Q, Reached o Q ∧ Relation.ReflTransGen (Goes o) Q (.exited m code) ∧
      Q.Holds o (-1) := by
  obtain ⟨heap, world, input, hrun⟩ := h
  have hstart : Coded o (start heap world input) (start heap world input) := trivial
  have hcoded : Coded o (start heap world input) (.exited m code) := hstart.reaches hrun
  rcases hcoded with hzero | ⟨hcode, hneg | ⟨Q, hbefore, hafter, hholds⟩⟩
  · exact .inl hzero
  · exact absurd hneg (by decide)
  · exact .inr ⟨hcode, Q, ⟨heap, world, input, hbefore⟩, hafter, hholds⟩

def minusOne : Setting oneFrame 1 Unit :=
  { Setting.ofFiles oneFrame 1 scripts with errorCode := fun _ => -1 }

/-- The shell behind `quit`, and behind a line without a command. -/
theorem exit_code_quit : (∃ (m : Memory oneFrame 1 Unit) (code : ℤ),
    Reached (Setting.ofFiles oneFrame 1 scripts) (.exited m code) ∧ code = 0) ∧
    ∃ (m : Memory oneFrame 1 Unit) (Q : Process oneFrame 1 Unit), Reached minusOne Q ∧
      Relation.ReflTransGen (Goes minusOne) Q (.exited m 99) ∧ Q.Holds minusOne (-1) := by
  have hquit : Reached (Setting.ofFiles oneFrame 1 scripts) (.exited _ 0) :=
    (reached_startIn (Setting.ofFiles oneFrame 1 scripts) [ascii "quit"]).runFor (n := 2) rfl
  have hempty : Reached minusOne (.exited _ 99) :=
    (reached_startIn minusOne [ascii ";"]).runFor (n := 2) rfl
  constructor
  · refine ⟨_, 0, hquit, (exit_code hquit).resolve_right ?_⟩
    rintro ⟨hcode, -⟩
    exact absurd hcode (by decide)
  · obtain ⟨-, Q, hQ, hexit, hholds⟩ := (exit_code hempty).resolve_left (by decide)
    exact ⟨_, Q, hQ, hexit, hholds⟩

end Process

end PicoShell.Core
