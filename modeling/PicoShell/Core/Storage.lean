import PicoShell.Core.Sessions
import PicoShell.Fs.Superblock
import PicoShell.Scheduling.Interleaving

namespace PicoShell.Core

open Scheduling
open Exec (Ensures)
open Relation (ReflTransGen)

variable {s : Sizes} {size : ℕ} {H : Type} {o : Setting s size H} {m m' : Memory s size H}
  {P P' : Process s size H}

def OfDirectory : Fs.Call → Prop
  | .create _ type _ _ => type = .directoryT
  | .delete _ type _ => type = .directoryT

/-- A call of a command on the file system. -/
inductive Stores (fs : Fs.State) : Fs.State → Prop
  | chdir {path : Fs.CString} {name : Fs.NameBuf} {dest : Fs.Inode} {r : ℤ} {fs' : Fs.State}
      (hcall : Fs.fsChdir fs path name dest = .ok (r, fs')) : Stores fs fs'
  | call {call : Fs.Call} {r : ℤ} {disk : Fs.Disk} (htype : OfDirectory call)
      (hcall : call.exec fs.disk = .ok (r, disk)) : Stores fs { fs with disk := disk }

theorem call_stores (fs : Fs.State) {call : Fs.Call} (htype : OfDirectory call) :
    Ensures (call.exec fs.disk) fun r => ReflTransGen Stores fs { fs with disk := r.2 } :=
  fun _ hr => .single (.call htype hr)

theorem pathCommand_stores (cmd : Fs.PathCommand) (vstore : List UInt8 → Option Fs.CString)
    (fs : Fs.State) (arg : Fs.CString) (name : Fs.NameBuf) (dest : Fs.Inode)
    (stack : ℕ → Bytes 64) :
    Ensures (cmd.exec vstore fs arg name dest stack) fun r => ReflTransGen Stores fs r.2 := by
  cases cmd with
  | mkdir =>
    refine .bind (R := fun r => ReflTransGen Stores fs { fs with disk := r.2 }) ?_ fun r hr => .ok hr
    unfold Fs.mmkdir
    split
    · exact .ok .refl
    · rename_i path _
      have htype : OfDirectory (.create path .directoryT name stack) := rfl
      exact .ite (fun _ => .ok .refl) fun _ => .bind (call_stores fs htype) fun r hr => .ok hr
  | rmdir =>
    refine .bind (R := fun r => ReflTransGen Stores fs { fs with disk := r.2 }) ?_ fun r hr => .ok hr
    unfold Fs.rmdir
    split
    · exact .ok .refl
    · rename_i path _
      have htype : OfDirectory (.delete path .directoryT name) := rfl
      exact .ite (fun _ => .ok .refl) fun _ => .bind (call_stores fs htype) fun r hr => .ok hr
  | cd =>
    refine .ite (fun _ => .ok .refl) fun _ => ?_
    have hchdir : Ensures (Fs.fsChdir fs arg name dest) fun r => ReflTransGen Stores fs r.2 :=
      fun _ hr => .single (.chdir hr)
    exact .bind hchdir fun r hr => .ok hr

/-- What a command may have done to the file system when it returns, starts a scheduler or exits. -/
def Storing (m : Memory s size H) (x : Exec (Outcome s size H)) : Prop :=
  Ensures x fun y => ReflTransGen Stores m.world.fs y.memory.world.fs

namespace Storing

theorem pathCommand (o : Setting s size H) (m : Memory s size H) (cmd : Fs.PathCommand)
    (path : List UInt8) : Storing m (pathCommand o cmd path m) :=
  .bind (pathCommand_stores cmd _ _ _ _ _ _) fun _ hr => .ok hr

theorem touch (o : Setting s size H) (m : Memory s size H) (filename : List UInt8) :
    Storing m (.ok (touch o filename m)) := by
  apply Exec.Ensures.ok
  unfold Core.touch
  split_ifs
  · exact .refl
  · exact .refl

theorem ffork (o : Setting s size H) (m : Memory s size H) (args : List (List UInt8)) :
    Storing m (.ok (ffork o args m)) := by
  apply Exec.Ensures.ok
  unfold Core.ffork
  dsimp only
  split
  · exact .refl
  · exact .refl

theorem launched (o : Setting s size H) (m : Memory s size H) (programs : List Pointer)
    (policy : String) :
    Storing m (launched (launch o.env (o.host.lines m.world.host) programs policy m)) := by
  intro y hy
  obtain ⟨x, hlaunch, hy⟩ := Exec.bind_ok hy
  obtain ⟨m', hadds, ⟨code, rfl, -⟩ | ⟨p, rfl⟩⟩ := launch_adds hlaunch
  · rw [← Except.ok.inj hy]
    show ReflTransGen Stores m.world.fs m'.world.fs
    rw [Machine.adds_world hadds]
  · rw [← Except.ok.inj hy]
    show ReflTransGen Stores m.world.fs (schedule o.env p m').machine.world.fs
    rw [schedule_world, Machine.adds_world hadds]

end Storing

theorem interpreter_stores (o : Setting s size H) (m : Memory s size H)
    (words : List (List UInt8)) : Storing m (interpreter o words m) := by
  unfold interpreter
  dsimp only
  repeat' refine Exec.Ensures.ite (fun _ => ?_) fun _ => ?_
  all_goals first
    | exact Exec.Ensures.ok .refl
    | exact .bind .trivial fun _ _ => .ok .refl
    | exact Storing.pathCommand o m _ _
    | exact Storing.touch o m _
    | exact Storing.ffork o m _
    | exact Storing.launched o m _ _

namespace Process

theorem endLine_fs (m : Memory s size H) (code : ℤ) (input : List (List UInt8))
    (stack : List (Level s size H)) : (endLine m code input stack).memory.world = m.world := by
  cases stack with
  | nil =>
    unfold endLine
    split_ifs
    · rfl
    · rfl
  | cons l stack => exact Sched.resume_world l.sched l.pcb l.i l.frame code m

theorem openLine_stores {inp : Option (List UInt8)} {stack : List (Level s size H)}
    {input : List (List UInt8)} (h : openLine o inp m stack input = .ok P) :
    P.memory.world.fs = m.world.fs := by
  obtain ⟨commands, -, rfl⟩ := openLine_ok h
  rfl

theorem command_stores {cmd : List UInt8} {commands input : List (List UInt8)}
    {stack : List (Level s size H)} (h : command o m cmd commands stack input = .ok P) :
    ReflTransGen Stores m.world.fs P.memory.world.fs := by
  obtain ⟨words, -, h⟩ := Exec.bind_ok h
  obtain ⟨x, hinterpreter, h⟩ := Exec.bind_ok h
  have hstores := interpreter_stores o _ words x hinterpreter
  cases x with
  | returned code m' =>
    rw [← Except.ok.inj h]
    exact hstores
  | started c =>
    rw [← Except.ok.inj h]
    exact hstores
  | exited m' =>
    rw [← Except.ok.inj h]
    exact hstores

theorem iterate_fs {c : Sched s (List UInt8) (World size H)} {commands input : List (List UInt8)}
    {stack : List (Level s size H)} (h : iterate o c commands stack input = .ok P) :
    P.memory.world.fs = c.machine.world.fs := by
  obtain ⟨x, hnext, h⟩ := Exec.bind_ok h
  cases x with
  | ret =>
    rw [← Except.ok.inj h]
    rfl
  | goto c' =>
    rw [← Except.ok.inj h]
    show c'.machine.world.fs = _
    rw [Sched.next_goto_world hnext]
  | line c' pcb i frame =>
    obtain ⟨-, m, hfault, -, rfl⟩ := Sched.next_line hnext
    rw [openLine_stores h]
    exact congrArg World.fs hfault.world

theorem Goes.stores (h : Goes o P P') : ReflTransGen Stores P.memory.world.fs P'.memory.world.fs := by
  unfold Goes at h
  cases P with
  | prompt m input =>
    cases input with
    | nil =>
      rw [← Option.some.inj (Except.ok.inj h)]
      exact .refl
    | cons inp input =>
      obtain ⟨P₁, hopen, hP⟩ := Exec.map_ok h
      rw [← Option.some.inj hP, openLine_stores hopen]
      exact .refl
  | line m commands code stack input =>
    cases commands with
    | nil =>
      rw [← Option.some.inj (Except.ok.inj h), endLine_fs]
      exact .refl
    | cons cmd commands =>
      obtain ⟨P₁, hcommand, hP⟩ := Exec.map_ok h
      rw [← Option.some.inj hP]
      exact command_stores hcommand
  | scheduler c commands stack input =>
    obtain ⟨P₁, hiterate, hP⟩ := Exec.map_ok h
    rw [← Option.some.inj hP, iterate_fs hiterate]
    exact .refl
  | exited m code => cases Except.ok.inj h

theorem stores_of_reaches (h : ReflTransGen (Goes o) P P') :
    ReflTransGen Stores P.memory.world.fs P'.memory.world.fs := by
  induction h with
  | refl => exact .refl
  | tail _ hgoes ih => exact ih.trans hgoes.stores

end Process

/-- `fs_init` has been called, and then `fs_create`, `fs_delete` and `fs_chdir` on directories. -/
structure Stored (fs : Fs.State) : Prop where
  superblock : fs.disk.HasSuperblock
  directory : fs.InDirectory
  run : ∃ d₀, Fs.Booted d₀ ∧ Fs.Run (fun _ call => OfDirectory call) d₀ fs.disk

theorem Stored.call {fs fs' : Fs.State} (h : Stored fs) (hstores : Stores fs fs') :
    Stored fs' := by
  cases hstores with
  | chdir hcall =>
    obtain ⟨hdisk, hdirectory⟩ := Fs.fsChdir_directory _ _ _ _ _ hcall
    change fs'.disk = fs.disk at hdisk
    refine ⟨?_, hdirectory h.directory, ?_⟩
    · rw [hdisk]
      exact h.superblock
    · rw [hdisk]
      exact h.run
  | call htype hcall =>
    obtain ⟨d₀, hboot, hrun⟩ := h.run
    exact ⟨(Fs.Call.exec_first _ _ _ hcall).superblock h.superblock, h.directory, d₀, hboot,
      hrun.step htype hcall⟩

theorem Stored.calls {fs fs' : Fs.State} (h : Stored fs) (hstores : ReflTransGen Stores fs fs') :
    Stored fs' := by
  induction hstores with
  | refl => exact h
  | tail _ hcall ih => exact ih.call hcall

theorem boot_stored {heap : ℕ → PCB s (List UInt8)} {host : H} {cwd : Fs.Inode} {buf : Fs.Block}
    {stack : ℕ → Bytes 64} {input : List (List UInt8)}
    (h : boot heap host cwd buf stack input = .ok P) : Stored P.memory.world.fs := by
  obtain ⟨d, hinit, honly⟩ := Fs.fsInit_spec cwd buf stack
  have hfirst := Fs.fsInit_superblock _ _ _ _ hinit rfl
  rw [boot, hinit] at h
  rw [← Except.ok.inj h]
  exact ⟨hfirst, honly.type, d, ⟨_, _, _, _, hinit⟩, .refl⟩

/-- The disk of a shell, in whatever state it is, still has the superblock of `fs_init`; the
working directory is a directory; and the disk is what calls of `fs_create` and `fs_delete` on
directories make of an initialised one, one after the other. -/
theorem Process.disk_by_calls {heap : ℕ → PCB s (List UInt8)} {host : H} {cwd : Fs.Inode}
    {buf : Fs.Block} {stack : ℕ → Bytes 64} {input : List (List UInt8)}
    (hboot : boot heap host cwd buf stack input = .ok P) (hruns : ReflTransGen (Goes o) P P') :
    P'.memory.world.fs.disk.HasSuperblock ∧ P'.memory.world.fs.InDirectory ∧
      ∃ d₀, Fs.Booted d₀ ∧
        Fs.Run (fun _ call => OfDirectory call) d₀ P'.memory.world.fs.disk := by
  have h := (boot_stored hboot).calls (stores_of_reaches hruns)
  exact ⟨h.superblock, h.directory, h.run⟩

/-- The disk after a script that makes a directory and enters it. -/
theorem Process.disk_by_calls_A : ∃ P m' : Memory oneFrame 1 Unit,
    ReflTransGen (Process.Goes (Setting.ofFiles oneFrame 1 filesA))
      (.prompt P (sessionA.map UserLine.text)) (.prompt m' []) ∧ m'.world.output = "y\ny\n" ∧
      m'.world.fs.disk.HasSuperblock ∧ ∃ d₀, Fs.Booted d₀ ∧
        Fs.Run (fun _ call => OfDirectory call) d₀ m'.world.fs.disk := by
  obtain ⟨m, hboot, hreached, halloc, -, hv⟩ :=
    boot_shown (o := Setting.ofFiles oneFrame 1 filesA) (fun _ => Machine.newPCB 0 "" []) ()
      (Fs.freshInode .unusedT 0) (Bytes.zero 1024) (fun _ => Bytes.zero 64)
      (sessionA.map UserLine.text ++ [])
  obtain ⟨m', hreach, -, hshows⟩ := Process.reaches_shown hreached initialised_filesA halloc
    stocked_filesA hv fits_sessionA allowed_sessionA
  have hdisk := Process.disk_by_calls hboot hreach
  rw [List.append_nil] at hreach
  exact ⟨m, m', hreach, hshows.printed.trans rfl, hdisk.1, hdisk.2.2⟩

end PicoShell.Core
