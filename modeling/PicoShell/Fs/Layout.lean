import PicoShell.Fault
import PicoShell.Lib.Bytes

/-! The constants of `fs.h`, `inode.h`, `directory.h` and `file.h`, and the records
that are stored on disk with the bytes they occupy there. -/

namespace PicoShell

namespace Fs

@[simp] abbrev blockSize : ℕ := 1024
@[simp] abbrev numBlocks : ℕ := 128
@[simp] abbrev diskSize : ℕ := numBlocks * blockSize

@[simp] abbrev nDirect : ℕ := 12
@[simp] abbrev numInodes : ℕ := 80
/-- `sizeof(struct inode)`: the type, three counters and the direct pointers. -/
@[simp] abbrev inodeSize : ℕ := 4 * (4 + nDirect)
@[simp] abbrev numDataBlocks : ℕ := numBlocks - numInodes * inodeSize / blockSize - 3
@[simp] abbrev inodesPerBlock : ℕ := blockSize / inodeSize

@[simp] abbrev inodeBitmapBlock : ℕ := 1
@[simp] abbrev dataBitmapBlock : ℕ := 2
@[simp] abbrev inodeTableStart : ℕ := 3
@[simp] abbrev dataRegionStart : ℕ := 8
@[simp] abbrev rootInode : ℕ := 0

@[simp] abbrev maxFilenameLen : ℕ := 59
/-- `sizeof(dirent)`: the flag, the name, and the aligned inode number. -/
@[simp] abbrev direntSize : ℕ := 64
@[simp] abbrev maxFileSize : ℕ := nDirect * blockSize

/-- `uint8_t disk[DISK_SIZE]`. -/
abbrev Disk := Bytes 131072
/-- `uint8_t block[BLOCK_SIZE]`. -/
abbrev Block := Bytes 1024
/-- `char name[MAX_FILENAME_LEN]`. -/
abbrev NameBuf := Bytes 59

/-- The sizes in the types are the ones the headers compute. -/
example : diskSize = 131072 ∧ inodeSize = 64 ∧ numDataBlocks = 120 ∧
    inodesPerBlock = 16 ∧ maxFileSize = 12288 := by decide

/-- `enum file_type`; a stored type can be any `int`. -/
inductive FileType
  | unusedT
  | fileT
  | directoryT
  | other (code : Int32) (h : code ≠ 0 ∧ code ≠ 1 ∧ code ≠ 2)
  deriving DecidableEq

namespace FileType

def code : FileType → Int32
  | unusedT => 0
  | fileT => 1
  | directoryT => 2
  | other c _ => c

def ofCode (c : Int32) : FileType :=
  if h0 : c = 0 then unusedT
  else if h1 : c = 1 then fileT
  else if h2 : c = 2 then directoryT
  else other c ⟨h0, h1, h2⟩

@[simp] theorem ofCode_code (t : FileType) : ofCode t.code = t := by
  cases t with
  | unusedT => rfl
  | fileT => rfl
  | directoryT => rfl
  | other c h => simp [code, ofCode, h.1, h.2.1, h.2.2]

end FileType

@[ext] structure Inode where
  type : FileType
  inum : Int32
  size : Int32
  numLinks : Int32
  addrs : Fin 12 → Int32

namespace Inode

def word (x : Inode) : ℕ → Int32
  | 0 => x.type.code
  | 1 => x.inum
  | 2 => x.size
  | 3 => x.numLinks
  | k + 4 => if h : k < 12 then x.addrs ⟨k, h⟩ else 0

def ofWords (w : ℕ → Int32) : Inode where
  type := FileType.ofCode (w 0)
  inum := w 1
  size := w 2
  numLinks := w 3
  addrs k := w (k.val + 4)

def encode (x : Inode) : Bytes 64 := fun i =>
  Bytes.encodeInt (x.word (i.val / 4)) ⟨i.val % 4, Nat.mod_lt _ (by decide)⟩

def decode (b : Bytes 64) : Inode :=
  ofWords fun w => Bytes.decodeInt (b.slice (4 * w) 4)

theorem slice_encode (x : Inode) {w : ℕ} (hw : w < 16) :
    x.encode.slice (4 * w) 4 = Bytes.encodeInt (x.word w) := by
  funext i
  rw [Bytes.slice_apply, Bytes.get_of_lt _ (by omega)]
  have hdiv : (4 * w + i.val) / 4 = w := by omega
  have hmod : (4 * w + i.val) % 4 = i.val := by omega
  simp only [encode, hdiv, hmod]

@[simp] theorem decode_encode (x : Inode) : decode x.encode = x := by
  have hword : ∀ w < 16, Bytes.decodeInt (x.encode.slice (4 * w) 4) = x.word w := by
    intro w hw
    rw [slice_encode x hw, Bytes.decodeInt_encodeInt]
  obtain ⟨t, n, s, l, a⟩ := x
  simp only [decode, ofWords, mk.injEq]
  refine ⟨?_, hword 1 (by decide), hword 2 (by decide), hword 3 (by decide), ?_⟩
  · rw [hword 0 (by decide)]
    exact FileType.ofCode_code t
  · funext k
    rw [hword (k.val + 4) (by omega)]
    simp [word]

end Inode

structure Dirent where
  valid : Bool
  name : NameBuf
  inum : Int32

namespace Dirent

def encode (e : Dirent) : Bytes 64 := fun i =>
  if i.val = 0 then (if e.valid then 1 else 0)
  else if i.val < 60 then e.name.get (i.val - 1)
  else (Bytes.encodeInt e.inum).get (i.val - 60)

/-- A stored flag counts as true when its byte is not zero. -/
def decode (b : Bytes 64) : Dirent where
  valid := b.get 0 != 0
  name := b.slice 1 59
  inum := Bytes.decodeInt (b.slice 60 4)

def key (e : Dirent) : List UInt8 := e.name.cstr

@[simp] theorem decode_encode (e : Dirent) : decode e.encode = e := by
  obtain ⟨v, n, k⟩ := e
  simp only [decode, mk.injEq]
  refine ⟨?_, ?_, ?_⟩
  · cases v <;> rfl
  · funext i
    rw [Bytes.slice_apply, Bytes.get_of_lt _ (by omega)]
    simp only [encode]
    rw [if_neg (by omega), if_pos (by omega)]
    simp
  · have hs : (encode ⟨v, n, k⟩).slice 60 4 = Bytes.encodeInt k := by
      funext i
      rw [Bytes.slice_apply, Bytes.get_of_lt _ (by omega)]
      simp only [encode]
      rw [if_neg (by omega), if_neg (by omega)]
      simp
    rw [hs, Bytes.decodeInt_encodeInt]

/-- The slot that `memset(&dirent, 0, sizeof(dirent))` leaves behind. -/
def hole : Dirent := decode (Bytes.zero 64)

@[simp] theorem hole_valid : hole.valid = false := rfl

@[simp] theorem hole_key : hole.key = [] := by decide

end Dirent

def dotName : List UInt8 := [46]
def dotDotName : List UInt8 := [46, 46]

end Fs

end PicoShell
