import PicoShell.Core.Nested

namespace PicoShell.Scheduling.Machine.Mapped

variable {s : Sizes} {L W : Type} {env : Env s L W} {m m' : Machine s L W} {r : List ℕ} {pcb : ℕ}
  {c : Sched s L W} {files : String → Option (List L)}

/-- A duplicate has the mappings of a queued process, and a new process those of its own pages. -/
theorem adds (h : m.Mapped (Scope.all s)) (hcons : Consistent r m) (hadds : m.Adds env files m') :
    m'.Mapped (Scope.all s) := by
  cases hadds with
  | @dup script dup hfind =>
    have hdup := hcons.queue_mem (List.mem_of_find?_eq_some hfind)
    have hcopied : (m.pcbDupInit env dup).2.Mapped (Scope.all s) :=
      h.pcbDupInit hdup fun _ _ => trivial
    exact hcopied
  | @init script contents pcb m₁ _ _ hinit =>
    have hloaded : m₁.Mapped (Scope.all s) := h.pcbInit hcons (List.length_take_le _ _) hinit
    exact hloaded

theorem loads (h : m.Mapped (Scope.all s)) (hcons : Consistent r m)
    (hadds : Relation.ReflTransGen (Machine.Adds env files) m m') : m'.Mapped (Scope.all s) := by
  induction hadds with
  | refl => exact h
  | tail hadds hadd ih => exact ih.adds (hcons.loads hadds) hadd

theorem counted (h : m.Mapped (Scope.all s)) (frame : Fin s.numFrames) :
    (c.counted pcb frame m).Mapped (Scope.all s) := by
  apply h.of_same (c.counted pcb frame m) (fun _ hq => hq) rfl
  intro q _
  rw [Sched.counted_pcbs]
  split_ifs with hq
  · rw [hq]
    exact ⟨rfl, rfl, fun _ hneed => hneed⟩
  · exact ⟨rfl, rfl, fun _ hneed => hneed⟩

end PicoShell.Scheduling.Machine.Mapped

namespace PicoShell.Core

open Scheduling

variable {s : Sizes} {size : ℕ} {H : Type} {o : Setting s size H} {P P' : Process s size H}

namespace Process

/-- The next step is no page fault that loads anything but the lines of the program, or evicts a
frame that another process, or another page, is mapped to. -/
def SoundFault : Process s size H → Prop
  | scheduler c _ _ _ => c.SoundFault (Scope.all s)
  | _ => True

theorem Nested.mapped (h : P.Nested) (hmap : P.memory.Mapped (Scope.all s)) (hsound : P.SoundFault)
    (hmove : Moves o P P') (halive : P'.Alive) : P'.memory.Mapped (Scope.all s) := by
  cases hmove with
  | exits => exact absurd rfl (halive _ _)
  | loads w w' _ _ _ hadds _ hm =>
    rw [hm]
    have hworld : ({ P.memory with world := w } : Memory s size H).Mapped (Scope.all s) := hmap
    have hloaded := hworld.loads (h.cons.withWorld w) hadds
    exact hloaded
  | pops _ _ _ hm =>
    show Machine.Mapped _ _
    rw [memory, hm]
    exact hmap
  | @turns c c' commands stack input pcb i m _ hrun hfault hend =>
    exact (Machine.Mapped.faults hmap (h.scheduler hrun) hsound hfault).ends hend
  | @calls c commands stack input pcb i frame m _ w hrun hfault _ _ _ hm =>
    rw [hm]
    have hfaulted : m.Mapped (Scope.all s) :=
      Machine.Mapped.faults hmap (h.scheduler hrun) hsound hfault
    exact hfaulted
  | @resumes m code l stack input =>
    have hl := h.suspended l List.mem_cons_self
    have hcounted : (l.sched.counted l.pcb l.frame m).Mapped (Scope.all s) :=
      Machine.Mapped.counted hmap l.frame
    exact hcounted.ends (Sched.resume_ends hl.running l.frame code m).2

/-- In a run of the shell whose page faults are all sound, whatever its lines execute and however
processes share frames, each mapped page of a process that is queued, runs or waits is in its
frame. -/
theorem pages_mapped {heap : ℕ → PCB s (List UInt8)} {world : World size H}
    {input : List (List UInt8)}
    (hrun : Relation.ReflTransGen (fun P P' => Goes o P P' ∧ P.SoundFault)
      (start heap world input) P) (halive : P.Alive) {q page : ℕ} {f : Fin s.numFrames}
    (hq : q ∈ P.memory.allocated) (hf : (P.memory.pcbs q).pageTable page = some f) :
    P.memory.HoldsPage f (P.memory.pcbs q).script page := by
  suffices hinv : P.Nested ∧ P.memory.Mapped (Scope.all s) from hinv.2 q hq page f hf trivial
  clear hq hf
  induction hrun with
  | refl =>
    exact ⟨⟨consistent_memInit heap world, fun _ hl => absurd hl List.not_mem_nil⟩,
      fun _ hq => absurd hq List.not_mem_nil⟩
  | tail _ hgoes ih =>
    obtain ⟨hnested, hmap⟩ := ih hgoes.1.alive
    have hmove := goes_moves hgoes.1
    exact ⟨hnested.moves hmove halive, hnested.mapped hmap hgoes.2 hmove halive⟩

def ChecksFault : Process s size H → Prop
  | scheduler c _ _ _ => c.ChecksFault (Scope.all s)
  | _ => True

instance (P : Process s size H) : Decidable P.ChecksFault :=
  match P with
  | scheduler c _ _ _ => inferInstanceAs (Decidable (c.ChecksFault (Scope.all s)))
  | prompt .. | line .. | exited .. => inferInstanceAs (Decidable True)

/-- The state after `n` steps, if all of them meet a condition and none fails. -/
def runWhile (o : Setting s size H) (ok : Process s size H → Prop) [DecidablePred ok] :
    ℕ → Process s size H → Option (Process s size H)
  | 0, P => some P
  | n + 1, P =>
    match P.step o with
    | .ok (some P') => if ok P then runWhile o ok n P' else none
    | _ => none

theorem reaches_runWhile {ok : Process s size H → Prop} [DecidablePred ok] {n : ℕ}
    (hrun : runWhile o ok n P = some P') :
    Relation.ReflTransGen (fun P P' => Goes o P P' ∧ ok P) P P' := by
  induction n generalizing P with
  | zero =>
    obtain rfl := Option.some.inj hrun
    exact .refl
  | succ n ih =>
    rw [runWhile] at hrun
    split at hrun
    · rename_i P₁ hstep
      split_ifs at hrun with hok
      exact .head ⟨hstep, hok⟩ (ih hrun)
    · cases hrun

theorem sound_of_checked {heap : ℕ → PCB s (List UInt8)} {world : World size H}
    {input : List (List UInt8)}
    (hrun : Relation.ReflTransGen (fun P P' => Goes o P P' ∧ P.ChecksFault)
      (start heap world input) P) :
    Relation.ReflTransGen (fun P P' => Goes o P P' ∧ P.SoundFault) (start heap world input) P := by
  induction hrun with
  | refl => exact .refl
  | @tail P₁ P₂ before hgoes ih =>
    have hreached : Reached o P₁ := ⟨heap, world, input, Relation.ReflTransGen.mono (fun _ _ hgo => hgo.1) _ _ before⟩
    refine ih.tail ⟨hgoes.1, ?_⟩
    have hcons := (hreached.nested hgoes.1.alive).cons
    cases P₁ with
    | scheduler c => exact hgoes.2.soundFault hcons
    | prompt | line | exited => exact trivial

def nestedTurns (script : String) : Option (List (List UInt8)) :=
  if script = "a" then some [ascii "p", ascii "q", ascii "r"]
  else if script = "b" then some [ascii "x", ascii "y", ascii "z"]
  else if script = "d" then some [ascii "exec b a a RR"] else none

def fiveFrames : Sizes := ⟨1, 5, Nat.one_pos, by decide⟩

/-- Two processes share the frames of `a`, and the third page of `b` is loaded into the frame of the
script that waits. -/
theorem pages_mapped_nested : ∃ P : Process fiveFrames 1 Unit, P.stack.map Level.pcb = [1] ∧
    P.memory.queue = [3, 4, 2] ∧ (P.memory.pcbs 1).pageTable 0 = none ∧
    P.memory.HoldsPage 0 [ascii "x", ascii "y", ascii "z"] 2 ∧
    ∀ q ∈ [3, 4], (P.memory.pcbs q).pageTable 0 = some 3 ∧
      P.memory.HoldsPage 3 (P.memory.pcbs q).script 0 := by
  have hcheck : ((runWhile (Setting.ofFiles fiveFrames 1 nestedTurns) ChecksFault 31
      (startIn fiveFrames 1 [ascii "run d"])).any fun P =>
        P.stack.map Level.pcb = [1] ∧ P.memory.queue = [3, 4, 2] ∧
          (P.memory.pcbs 1).pageTable 0 = none ∧ (P.memory.pcbs 2).pageTable 2 = some 0 ∧
          (P.memory.pcbs 2).script = [ascii "x", ascii "y", ascii "z"] ∧
          (∀ q ∈ [2, 3, 4], q ∈ P.memory.allocated) ∧
          ∀ q ∈ [3, 4], (P.memory.pcbs q).pageTable 0 = some 3) = true := by
    decide +kernel
  obtain ⟨P, hP, hstack, hqueue, hevicted, hpage, hscript, hlive, hshared⟩ := exists_of_any hcheck
  have hrun := sound_of_checked (reaches_runWhile hP)
  have halive : P.Alive := by
    rintro m code rfl
    cases hstack
  refine ⟨P, hstack, hqueue, hevicted, ?_, fun q hq => ⟨hshared q hq, ?_⟩⟩
  · rw [← hscript]
    exact pages_mapped hrun halive (hlive 2 (by decide)) hpage
  · exact pages_mapped hrun halive (hlive q (List.mem_cons_of_mem 2 hq)) (hshared q hq)

def twoCommands (_ : String) : Option (List (List UInt8)) := some [ascii "x", ascii "y"]

/-- Two duplicates in one frame: when the first one has executed its first line and loads the second
one, the other is still mapped to the frame. -/
theorem pages_not_mapped : ∃ P : Process oneFrame 1 Unit,
    Reached (Setting.ofFiles oneFrame 1 twoCommands) P ∧ 2 ∈ P.memory.queue ∧
      (P.memory.pcbs 2).pageTable 0 = some 0 ∧
      ¬ P.memory.HoldsPage 0 (P.memory.pcbs 2).script 0 := by
  have hcheck : ((runFor (Setting.ofFiles oneFrame 1 twoCommands) 7
      (startIn oneFrame 1 [ascii "exec a a FCFS"])).any fun P =>
        2 ∈ P.memory.queue ∧ (P.memory.pcbs 2).pageTable 0 = some 0 ∧
          (P.memory.pcbs 2).script = [ascii "x", ascii "y"] ∧
          P.memory.memory 0 = some (ascii "y")) = true := by
    decide +kernel
  obtain ⟨P, hP, hqueue, hpage, hscript, hmemory⟩ := exists_of_any hcheck
  refine ⟨P, (reached_startIn _ _).runFor hP, hqueue, hpage, ?_⟩
  intro hholds
  have hline := hholds 0 Nat.one_pos (by rw [hscript]; decide)
  rw [hscript] at hline
  exact absurd (hmemory.symm.trans hline) (by decide)

end Process

end PicoShell.Core
