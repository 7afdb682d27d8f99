import PicoShell.Fs.Layout

/-! `disk.c` and `block.c`.  A result `none` is the return value `-1`, which always
leaves the disk as it was; the null-pointer checks have no counterpart here. -/

namespace PicoShell.Fs

/-- `uint8_t disk[DISK_SIZE] = {0}`. -/
def Disk.zeroed : Disk := Bytes.zero 131072

/-- `disk_read`; the block layer is the only caller and passes `BLOCK_SIZE`. -/
def diskRead (disk : Disk) (size : ℕ) (offset : ℤ) : Option (Bytes size) :=
  if (size : ℤ) > diskSize - offset then none
  else if offset < 0 ∨ offset ≥ diskSize then none
  else some (disk.slice offset.toNat size)

def diskWrite {size : ℕ} (disk : Disk) (buf : Bytes size) (offset : ℤ) : Option Disk :=
  if (size : ℤ) > diskSize - offset then none
  else if offset < 0 ∨ offset ≥ diskSize then none
  else some (disk.splice offset.toNat buf)

def blockRead (disk : Disk) (bnum : ℤ) : Option Block :=
  if bnum < 0 ∨ bnum ≥ numBlocks then none
  else diskRead disk blockSize (bnum * blockSize)

def blockWrite (disk : Disk) (buf : Block) (bnum : ℤ) : Option Disk :=
  if bnum < 0 ∨ bnum ≥ numBlocks then none
  else diskWrite disk buf (bnum * blockSize)

def Disk.block (disk : Disk) (k : ℕ) : Block := disk.slice (1024 * k) 1024

theorem blockRead_of_lt (disk : Disk) {k : ℕ} (h : k < 128) :
    blockRead disk k = some (disk.block k) := by
  have hoff : ((k : ℤ) * 1024).toNat = 1024 * k := by omega
  simp only [blockRead, diskRead, numBlocks, diskSize, blockSize, Nat.cast_ofNat, Nat.reduceMul]
  rw [if_neg (by omega), if_neg (by omega), if_neg (by omega), hoff]
  rfl

theorem blockWrite_of_lt (disk : Disk) (buf : Block) {k : ℕ} (h : k < 128) :
    blockWrite disk buf k = some (disk.splice (1024 * k) buf) := by
  have hoff : ((k : ℤ) * 1024).toNat = 1024 * k := by omega
  simp only [blockWrite, diskWrite, numBlocks, diskSize, blockSize, Nat.cast_ofNat, Nat.reduceMul]
  rw [if_neg (by omega), if_neg (by omega), if_neg (by omega), hoff]

end PicoShell.Fs
