import Mathlib.Algebra.GroupWithZero.Nat
import Mathlib.Data.List.FinRange
import PicoShell.Fault
import PicoShell.Lib.Recency

/-! The process control blocks, the frame store and its table, and the functions of
`memory.c`, `frame_store.c` and `lru.c` that the schedulers use. -/

namespace PicoShell.Scheduling

/-- The compile-time sizes: `FRAME_SIZE` and `FRAME_STORE_SIZE`, at least one frame. -/
structure Sizes where
  frameSize : ℕ
  frameStoreSize : ℕ
  frameSize_pos : 0 < frameSize
  frame_fits : frameSize ≤ frameStoreSize

/-- `MAX_FILE_SIZE` of `interpreter.h`, in lines. -/
@[simp] abbrev maxLines : ℕ := 100
@[simp] abbrev maxNumPrograms : ℕ := 3

namespace Sizes

variable (s : Sizes)

def numFrames : ℕ := s.frameStoreSize / s.frameSize

def maxPageTableSize : ℕ := (maxLines + s.frameSize - 1) / s.frameSize

theorem numFrames_pos : 0 < s.numFrames := Nat.div_pos s.frame_fits s.frameSize_pos

instance : NeZero s.numFrames := ⟨s.numFrames_pos.ne'⟩

theorem page_lt {line : ℕ} (h : line < maxLines) : line / s.frameSize < s.maxPageTableSize := by
  have hpos := s.frameSize_pos
  have h100 : line < 100 := h
  rw [maxPageTableSize, Nat.lt_div_iff_mul_lt hpos]
  have := Nat.div_mul_le_self line s.frameSize
  show line / s.frameSize * s.frameSize < 100 + s.frameSize - 1 - (s.frameSize - 1)
  omega

end Sizes

/-- `struct PCB` without its link: the ready queue is a list of addresses. -/
structure PCB (s : Sizes) (L : Type) where
  pid : ℕ
  filename : String
  /-- `file_contents`; `none` is a pointer to no string. -/
  fileContents : ℕ → Option L
  fileLength : ℕ
  /-- `page_table`; `none` is the sentinel `-1`. -/
  pageTable : ℕ → Option (Fin s.numFrames)
  programCounter : ℕ
  jobScore : ℤ
  /-- The program the process was made for, recorded for the specification. -/
  script : List L

/-- What the schedulers do, recorded for the specification: the start of a turn of a process, and
a string handed to `parseInput` for it at a program counter. -/
inductive Event (L : Type)
  | turn (pid : ℕ)
  | line (pid pc : ℕ) (value : Option L)

def Event.pid {L : Type} : Event L → ℕ
  | turn pid => pid
  | line pid _ _ => pid

/-- The memory manager, the heap of process control blocks, and the ready queue. -/
structure Machine (s : Sizes) (L W : Type) where
  memory : ℕ → Option L
  /-- `frame_table`: the address of a process and its page. -/
  frameTable : Fin s.numFrames → Option (ℕ × ℕ)
  lru : Recency (Fin s.numFrames)
  /-- The process control block at each address; freed blocks keep their last contents. -/
  pcbs : ℕ → PCB s L
  /-- The addresses that were returned by `malloc` and not freed. -/
  allocated : List ℕ
  queue : List ℕ
  nextPid : ℕ
  /-- Everything the interpreted lines read and change. -/
  world : W
  history : List (Event L)

/-- What the code does not determine: the interpreter, the addresses that `malloc` returns, and
the values of uninitialised memory. -/
structure Env (s : Sizes) (L W : Type) where
  parseInput : Option L → W → ℤ × W
  malloc : Machine s L W → ℕ
  malloc_fresh : ∀ m, malloc m ∉ m.allocated
  garbageContents : Machine s L W → ℕ → Option L
  garbageCode : Machine s L W → ℤ

variable {s : Sizes} {L W : Type}

theorem Env.ne_malloc (env : Env s L W) {m : Machine s L W} {pcb q : ℕ} (hpcb : pcb = env.malloc m)
    (hq : q ∈ m.allocated) : q ≠ pcb := by
  rintro rfl
  exact env.malloc_fresh m (hpcb ▸ hq)

namespace Machine

variable (m : Machine s L W)

def modify (p : ℕ) (f : PCB s L → PCB s L) : Machine s L W :=
  { m with pcbs := Function.update m.pcbs p (f (m.pcbs p)) }

def setPage (p page : ℕ) (frame : Option (Fin s.numFrames)) : Machine s L W :=
  m.modify p fun pcb => { pcb with pageTable := Function.update pcb.pageTable page frame }

def readPage (p page : ℕ) : Exec (Option (Fin s.numFrames)) :=
  if page < s.maxPageTableSize then .ok ((m.pcbs p).pageTable page) else .error .index

def fstoreFindAvailableFrame : Option (Fin s.numFrames) :=
  (List.finRange s.numFrames).find? fun frame => (m.memory (frame * s.frameSize)).isNone

def fstoreGet (address : ℕ) : Option L := m.memory address

def fstoreSet (value : L) (address : ℕ) : Machine s L W :=
  -- the check lets the first address behind the frame store pass
  if s.frameStoreSize < address then m
  else { m with memory := Function.update m.memory address (some value) }

def fstoreEvictFrame (frame : Fin s.numFrames) : Machine s L W :=
  { m with memory := fun address =>
      if frame * s.frameSize ≤ address ∧ address < frame * s.frameSize + s.frameSize then none
      else m.memory address }

def getLruFrame : Fin s.numFrames := m.lru.oldest

def accessFrame (frame : Fin s.numFrames) : Machine s L W := { m with lru := m.lru.touch frame }

/-- The loop of `mem_load_page_into_frame` for the first offsets; `strdup` needs a string. -/
def loadLines (pcb page : ℕ) (frame : Fin s.numFrames) (m : Machine s L W) :
    ℕ → Exec (Machine s L W)
  | 0 => .ok m
  | offset + 1 => do
    let m ← loadLines pcb page frame m offset
    let line := page * s.frameSize + offset
    let address := frame * s.frameSize + offset
    if line < (m.pcbs pcb).fileLength then
      match (m.pcbs pcb).fileContents line with
      | none => .error .pointer
      | some value => .ok (m.fstoreSet value address)
    else .ok m

def memLoadPageIntoFrame (pcb page : ℕ) (frame : Fin s.numFrames) : Exec (Machine s L W) := do
  if (m.pcbs pcb).fileLength ≤ page * s.frameSize then
    return m
  else
    let m ← loadLines pcb page frame m s.frameSize
    let m := { m with frameTable := Function.update m.frameTable frame (some (pcb, page)) }
    return (m.setPage pcb page (some frame)).accessFrame frame

def memFreeMemoryFrame (frame : Fin s.numFrames) : Exec (Machine s L W) :=
  match m.frameTable frame with
  | none => .error .pointer
  -- other processes may be mapped to the frame, and stay so
  | some (pcb, page) =>
    .ok { (m.fstoreEvictFrame frame).setPage pcb page none with
      frameTable := Function.update m.frameTable frame none }

end Machine

/-- `mem_init`, with whatever the heap holds. -/
def memInit (heap : ℕ → PCB s L) (world : W) : Machine s L W where
  memory _ := none
  frameTable _ := none
  lru := ⟨List.finRange s.numFrames, List.nodup_finRange _, List.mem_finRange⟩
  pcbs := heap
  allocated := []
  queue := []
  nextPid := 1
  world := world
  history := []

end PicoShell.Scheduling
