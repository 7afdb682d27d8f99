import PicoShell.Fs.Pathname

/-! `fs.c`.  Local buffers that the source leaves uninitialised are arguments here: the
name buffer, the rest of the superblock's block, and the memory each `dir_add` finds
at the address of its parameter. -/

namespace PicoShell.Fs

/-- The `int`s of `struct superblock` behind its type string. -/
def superblockWord : ℕ → Int32
  | 0 => 80
  | 1 => 3
  | 2 => 120
  | _ => 1024

/-- `struct superblock`: the string `idk` and four `int`s. -/
def superblock : Bytes 20 := fun i =>
  if i.val < 4 then (Bytes.ofList 4 [105, 100, 107]).get i.val
  else Bytes.encodeInt (superblockWord (i.val / 4 - 1)) ⟨i.val % 4, Nat.mod_lt _ (by decide)⟩

def superblockInit (disk : Disk) (buf : Block) : Option Disk :=
  blockWrite disk (buf.splice 0 superblock) 0

/-- An inode as the source initialises it: no blocks, and the rest zero. -/
def freshInode (type : FileType) (numLinks : Int32) : Inode := ⟨type, 0, 0, numLinks, fun _ => -1⟩

/-- A directory entry with a string literal as its name. -/
def literalDirent (name : List UInt8) (inum : Int32) : Dirent := ⟨true, Bytes.ofList 59 name, inum⟩

/-- `dir_add(inum, &curr) != 0 || dir_add(inum, &par) != 0`, negated. -/
def addDots (disk : Disk) (inum parInum : Int32) (stack : ℕ → Bytes 64) : Exec (Bool × Disk) := do
  let (r, disk) ← dirAdd disk (uintOf inum.toInt) (literalDirent dotName inum) (stack 0)
  if r ≠ 0 then
    return (false, disk)
  else
    let (r, disk) ← dirAdd disk (uintOf inum.toInt) (literalDirent dotDotName parInum) (stack 1)
    return (r = 0, disk)

def rootInit (disk : Disk) (stack : ℕ → Bytes 64) : Exec (ℤ × Disk) := do
  let (r, disk, root) ← inodeAlloc disk (freshInode .directoryT 0)
  if r ≠ 0 then
    return (-1, disk)
  else if root.inum.toInt ≠ rootInode then
    return (-1, disk)
  else
    let (ok, disk) ← addDots disk root.inum root.inum stack
    return (if ok then 0 else -1, disk)

structure State where
  disk : Disk
  cwd : Inode

def fsInit (s : State) (buf : Block) (stack : ℕ → Bytes 64) : Exec (ℤ × State) :=
  match superblockInit s.disk buf with
  | none => .ok (-1, s)
  | some disk => do
    let (r, disk) ← rootInit disk stack
    if r ≠ 0 then
      return (-1, { s with disk := disk })
    else
      match inodeRead disk rootInode with
      | none => return (-1, { s with disk := disk })
      | some cwd => return (0, ⟨disk, cwd⟩)

/-- `fs_chdir`; `dest` is its uninitialised local inode. -/
def fsChdir (s : State) (path : CString) (name : NameBuf) (dest : Inode) : Exec (ℤ × State) := do
  -- what the lookup returns is not looked at, only the inode that it may have filled in
  let dest := (← pathLookup s.disk path name).getD dest
  if dest.type ≠ .directoryT then
    return (-1, s)
  else
    return (0, { s with cwd := dest })

/-- The branch of `fs_create` for directories, once the inode is allocated. -/
def linkDirectory (disk : Disk) (dirInode inode : Inode) (name : NameBuf) (stack : ℕ → Bytes 64) :
    Exec (ℤ × Disk) := do
  let (ok, disk) ← addDots disk inode.inum dirInode.inum stack
  if !ok then
    -- the inode stays taken, here and below
    return (-1, disk)
  else
    let dirInode := { dirInode with numLinks := dirInode.numLinks + 1 }
    match inodeUpdate disk dirInode dirInode.inum.toInt with
    | none => return (-1, disk)
    | some disk =>
      let (r, disk) ← dirAdd disk (uintOf dirInode.inum.toInt) ⟨true, name, inode.inum⟩ (stack 2)
      return (if r ≠ 0 then -1 else 0, disk)

def fsCreate (disk : Disk) (path : CString) (type : FileType) (name : NameBuf)
    (stack : ℕ → Bytes 64) : Exec (ℤ × Disk) :=
  if type ≠ .fileT ∧ type ≠ .directoryT then .ok (-1, disk)
  else do
    match ← pathLookupParent disk path name with
    | (none, _) => return (-1, disk)
    | (some dirInode, name) =>
      if (← dirLookup disk (uintOf dirInode.inum.toInt) name.cstr) ≠ -1 then
        return (-1, disk)
      else
        let (r, disk, inode) ← inodeAlloc disk (freshInode type 1)
        if r = -1 then
          return (-1, disk)
        else if type = .directoryT then
          linkDirectory disk dirInode inode name stack
        else
          -- a file gets no entry in its directory
          return (0, disk)

/-- The loop of `fs_delete` over the direct pointers; `false` where a block cannot be freed. -/
def freeBlocks (disk : Disk) : List Int32 → Exec (Bool × Disk)
  | [] => .ok (true, disk)
  | addr :: addrs => do
    match ← dataFree disk addr.toInt with
    -- so too at the first unused pointer, which is `-1`
    | none => return (false, disk)
    | some disk => freeBlocks disk addrs

/-- The part of `fs_delete` behind the removal of the entry. -/
def releaseInode (disk : Disk) (dirInode inode : Inode) : Exec (ℤ × Disk) := do
  -- the `..` of a directory was a link to its parent
  let updated :=
    if inode.type = .directoryT then
      inodeUpdate disk { dirInode with numLinks := dirInode.numLinks - 1 } dirInode.inum.toInt
    else some disk
  match updated with
  | none => return (-1, disk)
  | some disk =>
    let (ok, disk) ← freeBlocks disk (List.ofFn inode.addrs)
    if !ok then
      return (-1, disk)
    else
      match ← inodeFree disk inode.inum.toInt with
      | none => return (-1, disk)
      | some disk => return (0, disk)

def fsDelete (disk : Disk) (path : CString) (type : FileType) (name : NameBuf) :
    Exec (ℤ × Disk) :=
  if path.bytes = [slash] then .ok (-1, disk)
  else if type ≠ .fileT ∧ type ≠ .directoryT then .ok (-1, disk)
  else do
    match ← pathLookupParent disk path name with
    | (none, _) => return (-1, disk)
    | (some dirInode, name) =>
      let inum ← dirLookup disk (uintOf dirInode.inum.toInt) name.cstr
      if inum = -1 then
        return (-1, disk)
      else
        match inodeRead disk inum with
        | none => return (-1, disk)
        | some inode =>
          let empty ← if inode.type = .directoryT then dirEmpty disk (uintOf inode.inum.toInt)
            else .ok 1
          if empty ≠ 1 then
            return (-1, disk)
          else
            let (r, disk) ← dirRemove disk (uintOf dirInode.inum.toInt) name.cstr
            if r ≠ 0 then
              return (-1, disk)
            else releaseInode disk dirInode inode

/-- The calls that change the disk once it is initialised, with the uninitialised memory they
find. -/
inductive Call
  | create (path : CString) (type : FileType) (name : NameBuf) (stack : ℕ → Bytes 64)
  | delete (path : CString) (type : FileType) (name : NameBuf)

def Call.exec (d : Disk) : Call → Exec (ℤ × Disk)
  | create path type name stack => fsCreate d path type name stack
  | delete path type name => fsDelete d path type name

/-- `fs_init` on a zeroed disk succeeds and leaves `d`. -/
def Booted (d : Disk) : Prop :=
  ∃ cwd buf stack cwd', fsInit ⟨.zeroed, cwd⟩ buf stack = .ok (0, ⟨d, cwd'⟩)

/-- `d` is reached from `d₀` by calls that meet `ok` when they are made. -/
inductive Run (ok : Disk → Call → Prop) (d₀ : Disk) : Disk → Prop
  | refl : Run ok d₀ d₀
  | step {d call r d'} (before : Run ok d₀ d) (meets : ok d call)
      (step : call.exec d = .ok (r, d')) : Run ok d₀ d'

theorem Run.mono {ok ok' : Disk → Call → Prop} {d₀ d : Disk} (h : Run ok d₀ d)
    (himp : ∀ d call, ok d call → ok' d call) : Run ok' d₀ d := by
  induction h with
  | refl => exact .refl
  | step _ hok hstep ih => exact .step ih (himp _ _ hok) hstep

theorem Run.invariant {ok : Disk → Call → Prop} {d₀ d : Disk} {I : Disk → Prop} (h : Run ok d₀ d)
    (h₀ : I d₀) (hstep : ∀ d call r d', I d → ok d call → call.exec d = .ok (r, d') → I d') : I d := by
  induction h with
  | refl => exact h₀
  | step _ hok hs ih => exact hstep _ _ _ _ ih hok hs

end PicoShell.Fs
