import PicoShell.Core.Process
import PicoShell.Scheduling.Suspended

namespace PicoShell.Core

open Scheduling

variable {s : Sizes} {size : ℕ} {H : Type} {o : Setting s size H} {m m' : Memory s size H}
  {x : Outcome s size H} {out : String × ℤ}

theorem joinTokens_eq {value : List (List UInt8)} {front : List UInt8} (hne : value ≠ [])
    (hlen : front.length + ([space].intercalate value).length < maxUserInput) :
    joinTokens value front = .ok (front ++ [space].intercalate value) := by
  induction value generalizing front with
  | nil => exact absurd rfl hne
  | cons arg value ih =>
    cases value with
    | nil =>
      rw [List.intercalate_singleton] at hlen ⊢
      exact if_pos hlen
    | cons arg' value =>
      rw [List.intercalate_cons_cons, List.append_assoc] at hlen ⊢
      simp only [List.length_append, List.length_singleton] at hlen
      have hfirst : strcat maxUserInput front arg = .ok (front ++ arg) := if_pos (by omega)
      have hblank : strcat maxUserInput (front ++ arg) [space] = .ok (front ++ arg ++ [space]) :=
        if_pos (by simp only [List.length_append, List.length_singleton]; omega)
      simp only [joinTokens, hfirst, hblank, bind, Except.bind]
      rw [ih (List.cons_ne_nil _ _)
        (by simp only [List.length_append, List.length_singleton]; omega)]
      simp only [List.append_assoc]

theorem length_intercalate_le {value : List (List UInt8)} (h : ∀ w ∈ value, w.length < tmpSize) :
    ([space].intercalate value).length ≤ 200 * value.length - 1 := by
  induction value with
  | nil => simp
  | cons w value ih =>
    obtain ⟨hw, hvalue⟩ := List.forall_mem_cons.mp h
    have hshort : w.length < 200 := hw
    have ih := ih hvalue
    by_cases hnil : value = []
    · rw [hnil, List.intercalate_singleton, List.length_singleton]
      omega
    · have hpos := List.length_pos_iff.mpr hnil
      rw [List.intercalate_cons_of_ne_nil hnil]
      simp only [List.length_append, List.length_cons, List.length_nil]
      omega

/-- The buffer of `set` holds the five words that it may be given. -/
theorem joinTokens_short {value : List (List UInt8)} (h : ∀ w ∈ value, w.length < tmpSize)
    (hlen : value.length ≤ 5) : joinTokens value [] = .ok ([space].intercalate value) := by
  by_cases hnil : value = []
  · rw [hnil]
    rfl
  · have hle := length_intercalate_le h
    have hpos := List.length_pos_iff.mpr hnil
    apply joinTokens_eq hnil
    rw [List.length_nil]
    show 0 + _ < 1000
    omega

abbrev Setting.Adds (o : Setting s size H) (host : H) (m m' : Memory s size H) : Prop :=
  Relation.ReflTransGen (Machine.Adds o.env (o.host.lines host)) m m'

/-- What a call of the interpreter comes to. -/
inductive Answers (o : Setting s size H) (m : Memory s size H) : Outcome s size H → Prop
  | returned {code : ℤ} {m' : Memory s size H} (w : World size H) (hcode : 0 ≤ code)
      (hadds : o.Adds m.world.host m m') : Answers o m (.returned code { m' with world := w })
  | started {m' : Memory s size H} (p : Policy) (hadds : o.Adds m.world.host m m') :
      Answers o m (.started (schedule o.env p m'))
  | exited (w : World size H) : Answers o m (.exited { m with world := w })

def Outcome.memory : Outcome s size H → Memory s size H
  | returned _ m => m
  | started c => c.machine
  | exited m => m

theorem Answers.extends (h : Answers o m x) : (∀ q ∈ m.allocated, q ∈ x.memory.allocated) ∧
    ∀ q ∈ m.allocated, x.memory.pcbs q = m.pcbs q := by
  cases h with
  | returned w _ hadds =>
    have hextends := Machine.extends_of_adds hadds
    exact ⟨hextends.allocated, hextends.pcbs⟩
  | @started m' p hadds =>
    have hextends := Machine.extends_of_adds hadds
    obtain ⟨queue, -, hsched⟩ := schedule_eq o.env p m'
    show (∀ q ∈ m.allocated, q ∈ (schedule o.env p m').machine.allocated) ∧
      ∀ q ∈ m.allocated, (schedule o.env p m').machine.pcbs q = m.pcbs q
    rw [hsched]
    exact ⟨hextends.allocated, hextends.pcbs⟩
  | exited w => exact ⟨fun _ hq => hq, fun _ _ => rfl⟩

def Answering (o : Setting s size H) (m : Memory s size H) (x : Exec (Outcome s size H)) : Prop :=
  ∀ y, x = .ok y → Answers o m y

namespace Answering

theorem ok (h : Answers o m x) : Answering o m (.ok x) := by
  intro y hy
  rwa [← Except.ok.inj hy]

theorem ite {p : Prop} [Decidable p] {x y : Exec (Outcome s size H)} (hx : Answering o m x)
    (hy : Answering o m y) : Answering o m (if p then x else y) := by
  split_ifs
  · exact hx
  · exact hy

theorem respond (o : Setting s size H) (m : Memory s size H) (w : World size H) (h : 0 ≤ out.2) :
    Answers o m (respond out { m with world := w }) :=
  @Answers.returned s size H o m out.2 m (w.print out.1) h .refl

theorem message (o : Setting s size H) (m : Memory s size H) (h : 0 ≤ out.2) :
    Answering o m (.ok (Core.respond out m)) :=
  .ok (respond o m m.world h)

theorem setCommand (o : Setting s size H) (m : Memory s size H) (name : List UInt8)
    (x : Exec (List UInt8)) : Answering o m (do return Core.setCommand name (← x) m) := by
  intro y hy
  obtain ⟨value, -, hy⟩ := Exec.bind_ok hy
  rw [← Except.ok.inj hy]
  exact .returned _ (Int.le_refl _) .refl

theorem print_code (store : Memory.VariableStore size) (var : String) :
    0 ≤ (Memory.print store var).2 := by
  unfold Memory.print
  split
  · decide
  · exact Int.le_refl 0

theorem echo_code (store : Memory.VariableStore size) (var : String) :
    0 ≤ (Memory.echo store var).2 := by
  unfold Memory.echo
  split
  · exact print_code _ _
  · exact Int.le_refl 0

theorem path_code {cmd : Fs.PathCommand} {vstore : List UInt8 → Option Fs.CString} {fs fs' : Fs.State}
    {arg : Fs.CString} {name : Fs.NameBuf} {dest : Fs.Inode} {stack : ℕ → Bytes 64}
    (h : cmd.exec vstore fs arg name dest stack = .ok (out, fs')) : 0 ≤ out.2 := by
  have hcode : ∀ (r : ℤ) (failed : String × ℤ), 0 ≤ failed.2 →
      0 ≤ (if r ≠ 0 then failed else ("", 0)).2 := by
    intro r failed hfailed
    split_ifs
    · exact hfailed
    · decide
  cases cmd with
  | mkdir =>
    obtain ⟨⟨out₁, disk⟩, hrun, h⟩ := Exec.bind_ok h
    obtain ⟨rfl, -⟩ := Exec.ok_inj h
    unfold Fs.mmkdir at hrun
    split at hrun
    · obtain ⟨rfl, -⟩ := Exec.ok_inj hrun
      decide
    · split_ifs at hrun
      · obtain ⟨rfl, -⟩ := Exec.ok_inj hrun
        decide
      · obtain ⟨⟨r, disk₁⟩, -, hrun⟩ := Exec.bind_ok hrun
        obtain ⟨rfl, -⟩ := Exec.ok_inj hrun
        exact hcode r _ (by decide)
  | rmdir =>
    obtain ⟨⟨out₁, disk⟩, hrun, h⟩ := Exec.bind_ok h
    obtain ⟨rfl, -⟩ := Exec.ok_inj h
    unfold Fs.rmdir at hrun
    split at hrun
    · obtain ⟨rfl, -⟩ := Exec.ok_inj hrun
      decide
    · split_ifs at hrun
      · obtain ⟨rfl, -⟩ := Exec.ok_inj hrun
        decide
      · obtain ⟨⟨r, disk₁⟩, -, hrun⟩ := Exec.bind_ok hrun
        obtain ⟨rfl, -⟩ := Exec.ok_inj hrun
        exact hcode r _ (by decide)
  | cd =>
    have hrun : Fs.cd fs arg name dest = .ok (out, fs') := h
    unfold Fs.cd at hrun
    split_ifs at hrun
    · obtain ⟨rfl, -⟩ := Exec.ok_inj hrun
      decide
    · obtain ⟨⟨r, fs₁⟩, -, hrun⟩ := Exec.bind_ok hrun
      obtain ⟨rfl, -⟩ := Exec.ok_inj hrun
      exact hcode r _ (by decide)

theorem pathCommand (o : Setting s size H) (m : Memory s size H) (cmd : Fs.PathCommand)
    (path : List UInt8) : Answering o m (pathCommand o cmd path m) := by
  intro y hy
  obtain ⟨⟨out, fs⟩, hrun, hy⟩ := Exec.bind_ok hy
  rw [← Except.ok.inj hy]
  exact respond o m _ (path_code hrun)

theorem ls (o : Setting s size H) (m : Memory s size H) : Answering o m (.ok (ls o m)) :=
  ok (respond o m _ (Int.le_refl 0))

theorem touch (o : Setting s size H) (m : Memory s size H) (filename : List UInt8) :
    Answering o m (.ok (touch o filename m)) := by
  unfold Core.touch
  split_ifs
  · exact message o m (by decide)
  · refine ok (respond o m _ ?_)
    split_ifs
    · decide
    · decide

theorem ffork (o : Setting s size H) (m : Memory s size H) (args : List (List UInt8)) :
    Answering o m (.ok (ffork o args m)) := by
  apply ok
  unfold Core.ffork
  dsimp only
  split
  · exact respond o m _ (by decide)
  · exact .returned _ (Int.natCast_nonneg _) .refl

theorem launched {programs : List Pointer} {policy : String} :
    Answering o m (launched (launch o.env (o.host.lines m.world.host) programs policy m)) := by
  intro y hy
  obtain ⟨z, hlaunch, hy⟩ := Exec.bind_ok hy
  obtain ⟨m', hadds, ⟨code, rfl, hcode⟩ | ⟨p, rfl⟩⟩ := launch_adds hlaunch
  · rw [← Except.ok.inj hy]
    exact .returned _ hcode hadds
  · rw [← Except.ok.inj hy]
    exact .started p hadds

end Answering

/-- A call of the interpreter returns with a code that is no error of the shell, starts a
scheduler, or ends the shell. -/
theorem interpreter_answers {args : List (List UInt8)} (h : interpreter o args m = .ok x) :
    Answers o m x := by
  suffices hall : Answering o m (interpreter o args m) from hall x h
  unfold interpreter
  dsimp only
  repeat' apply Answering.ite
  all_goals first
    | exact Answering.message o m (by decide)
    | exact Answering.setCommand o m _ _
    | exact Answering.message o m (Answering.print_code _ _)
    | exact Answering.message o m (Answering.echo_code _ _)
    | exact Answering.pathCommand o m _ _
    | exact Answering.touch o m _
    | exact Answering.ffork o m _
    | exact Answering.launched
    | exact Answering.ls o m
    | exact Answering.ok (.exited _)

end PicoShell.Core
