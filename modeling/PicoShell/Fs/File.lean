import PicoShell.Fs.Inode

/-! `file.c`: reads and writes of byte ranges of a file, one block-sized chunk at a
time. -/

namespace PicoShell.Fs

/-- The value of an `int` sum in two's complement. -/
def wrapInt (x : ℤ) : ℤ := x.bmod (2 ^ 32)

/-- An `int` converted to `uint`. -/
def uintOf (x : ℤ) : ℕ := (x % 2 ^ 32).toNat

/-- The loop of `file_read` at `read` bytes read; every round reads at least one
byte, so `fuel` is the number of bytes asked for. -/
def readLoop (disk : Disk) (inode : Inode) (byteCount : ℤ) :
    ℕ → ℤ → ℤ → List UInt8 → Exec (ℤ × List UInt8)
  | 0, read, _, buf => if read < byteCount then .error .fuel else .ok (byteCount, buf)
  | fuel + 1, read, offset, buf =>
    if read < byteCount then
      let addr := uintOf (offset.tdiv blockSize)
      if h : addr < 12 then
        -- the loop stops where no block follows, whatever the size of the file
        if inode.addrs ⟨addr, h⟩ = -1 then .ok (read, buf)
        else
          match dataRead disk (inode.addrs ⟨addr, h⟩).toInt with
          | none => .ok (-1, buf)
          | some block =>
            let start := offset.tmod blockSize
            let chunkSize := min (byteCount - read) (blockSize - start)
            if 0 ≤ start ∧ start + chunkSize ≤ blockSize then
              readLoop disk inode byteCount fuel (read + chunkSize) (offset + chunkSize)
                (buf ++ block.window start.toNat chunkSize.toNat)
            else .error .index
      else .error .index
    else .ok (byteCount, buf)

/-- `file_read`: the return value and the bytes stored in the caller's buffer. -/
def fileRead (disk : Disk) (inode : Inode) (offset byteCount : ℤ) : Exec (ℤ × List UInt8) :=
  if offset > inode.size.toInt then .ok (-1, [])
  -- the sums of `int`s are taken to wrap
  else if wrapInt (offset + byteCount) < offset then .ok (-1, [])
  else if wrapInt (offset + byteCount) > maxFileSize then .ok (-1, [])
  else readLoop disk inode byteCount byteCount.toNat 0 offset []

/-- The loop of `file_write` at `written` bytes written: the offset it stops at, or
`none` where it returns `-1` in the middle, with the disk and the inode so far. -/
def writeLoop {n : ℕ} (buf : Bytes n) :
    ℕ → ℕ → ℕ → Disk → Inode → Exec (Option ℕ × Disk × Inode)
  | 0, written, offset, disk, inode =>
    if written < n then .error .fuel else .ok (some offset, disk, inode)
  | fuel + 1, written, offset, disk, inode =>
    if written < n then do
      let (dnum, disk, inode) ← inodeDatamap disk inode (offset / blockSize)
      match dataRead disk dnum with
      -- where `inode_datamap` has failed `dnum` is `-1`; nothing is given back
      | none => return (none, disk, inode)
      | some block =>
        let chunkSize := min (n - written) (blockSize - offset % blockSize)
        let block := block.splice (offset % blockSize) (buf.slice written chunkSize)
        match dataUpdate disk block dnum with
        | none => return (none, disk, inode)
        | some disk =>
          writeLoop buf fuel (written + chunkSize) (offset + chunkSize) disk inode
    else .ok (some offset, disk, inode)

/-- `file_write` of the `n` bytes of `buf`: the return value, the disk and the inode. -/
def fileWrite {n : ℕ} (disk : Disk) (inode : Inode) (buf : Bytes n) (offset : ℕ) :
    Exec (ℤ × Disk × Inode) :=
  if offset > uintOf inode.size.toInt then .ok (-1, disk, inode)
  else if (offset + n) % 2 ^ 32 < offset then .ok (-1, disk, inode)
  else if (offset + n) % 2 ^ 32 > maxFileSize then .ok (-1, disk, inode)
  else do
    match ← writeLoop buf n 0 offset disk inode with
    | (none, disk, inode) => return (-1, disk, inode)
    | (some offset, disk, inode) =>
      if offset > uintOf inode.size.toInt then
        -- new pointers come with a new size, so the inode on the disk has them too
        let inode := { inode with size := Int32.ofNat offset }
        match inodeUpdate disk inode inode.inum.toInt with
        | none => return (-1, disk, inode)
        | some disk => return (n, disk, inode)
      else return (n, disk, inode)

namespace Inode

def addr (x : Inode) (k : ℕ) : ℤ := if h : k < 12 then (x.addrs ⟨k, h⟩).toInt else -1

def len (x : Inode) : ℕ := x.size.toInt.toNat

theorem addr_of_lt (x : Inode) {k : ℕ} (h : k < 12) : x.addr k = (x.addrs ⟨k, h⟩).toInt :=
  dif_pos h

theorem addrs_eq_neg_one (x : Inode) {k : ℕ} (h : k < 12) :
    x.addrs ⟨k, h⟩ = -1 ↔ x.addr k = -1 := by
  rw [addr_of_lt x h, ← Int32.toInt_inj]
  rfl

def setAddr (x : Inode) (k : ℕ) (b : ℤ) : Inode :=
  if h : k < 12 then { x with addrs := Function.update x.addrs ⟨k, h⟩ (Int32.ofInt b) } else x

theorem addr_setAddr (x : Inode) {k : ℕ} (l : ℕ) {b : ℤ} (hk : k < 12) (hb : 0 ≤ b)
    (hb' : b < 120) : (x.setAddr k b).addr l = if l = k then b else x.addr l := by
  unfold setAddr addr
  rw [dif_pos hk]
  by_cases hl : l < 12
  · rw [dif_pos hl, dif_pos hl]
    by_cases hlk : l = k
    · subst hlk
      rw [if_pos rfl]
      simp only [Function.update_self]
      exact Int32.toInt_ofInt_of_le (by omega) (by omega)
    · have hne : (⟨l, hl⟩ : Fin 12) ≠ ⟨k, hk⟩ := by simpa using hlk
      rw [if_neg hlk]
      simp only [Function.update_of_ne hne]
  · rw [dif_neg hl, dif_neg hl, if_neg (by omega)]

@[simp] theorem setAddr_size (x : Inode) (k : ℕ) (b : ℤ) : (x.setAddr k b).size = x.size := by
  unfold setAddr; split <;> rfl

@[simp] theorem setAddr_inum (x : Inode) (k : ℕ) (b : ℤ) : (x.setAddr k b).inum = x.inum := by
  unfold setAddr; split <;> rfl

@[simp] theorem setAddr_type (x : Inode) (k : ℕ) (b : ℤ) : (x.setAddr k b).type = x.type := by
  unfold setAddr; split <;> rfl

@[simp] theorem setAddr_numLinks (x : Inode) (k : ℕ) (b : ℤ) :
    (x.setAddr k b).numLinks = x.numLinks := by
  unfold setAddr; split <;> rfl

end Inode

/-- Byte `p` of the file whose inode is `x`. -/
def Disk.byte (d : Disk) (x : Inode) (p : ℕ) : UInt8 :=
  (d.data (x.addr (p / 1024)).toNat).get (p % 1024)

/-- The blocks that `m` bytes take. -/
def blockCount (m : ℕ) : ℕ := (m + 1023) / 1024

/-- The blocks that hold the first `m` bytes of `x`, and only those, are present. -/
structure Covers (x : Inode) (m : ℕ) : Prop where
  present : ∀ k < 12, x.addr k ≠ -1 ↔ 1024 * k < m
  range : ∀ k < 12, x.addr k ≠ -1 → 0 ≤ x.addr k ∧ x.addr k < 120

/-- The first `m` bytes of `x` are in blocks of the disk. -/
def Present (x : Inode) (m : ℕ) : Prop :=
  ∀ k < 12, 1024 * k < m → 0 ≤ x.addr k ∧ x.addr k < 120

theorem Covers.present_of {x : Inode} {m : ℕ} (hx : Covers x m) : Present x m :=
  fun k hk hm => hx.range k hk ((hx.present k hk).mpr hm)

/-- A file that can be read from its start to its end. -/
structure Inode.Legible (x : Inode) : Prop where
  nonneg : 0 ≤ x.size.toInt
  le_max : x.size.toInt ≤ 12288
  present : Present x x.len

theorem uintOf_natCast {p : ℕ} (h : p < 2 ^ 32) : uintOf p = p := by
  unfold uintOf
  omega

/-- The chunk that a round of the loop handles lies in one block. -/
theorem window_chunk (d : Disk) (x : Inode) {p c : ℕ} (hc : p % 1024 + c ≤ 1024) :
    (d.data (x.addr (p / 1024)).toNat).window (p % 1024) c =
      (List.range c).map fun i => d.byte x (p + i) := by
  apply List.map_congr_left
  intro i hi
  have hi : i < c := List.mem_range.mp hi
  have hdiv : (p + i) / 1024 = p / 1024 := by omega
  have hmod : (p + i) % 1024 = p % 1024 + i := by omega
  rw [Disk.byte, hdiv, hmod]

/-- The addresses of the next chunk. -/
theorem uintOf_tdiv {p : ℕ} (hp : p < 12288) :
    uintOf ((p : ℤ).tdiv blockSize) = p / 1024 ∧ (p : ℤ).tmod blockSize = ((p % 1024 : ℕ) : ℤ) := by
  simp only [blockSize, Nat.cast_ofNat]
  rw [Int.tdiv_eq_ediv_of_nonneg (by omega), Int.tmod_eq_emod_of_nonneg (by omega)]
  exact ⟨uintOf_natCast (p := p / 1024) (by omega), rfl⟩

/-- A round of the loop at a block that is there delivers a chunk of it. -/
theorem readLoop_round (d : Disk) {x : Inode} {n fuel read p c : ℕ} (buf : List UInt8)
    (hp : p < 12288) (haddr : 0 ≤ x.addr (p / 1024) ∧ x.addr (p / 1024) < 120) (hlt : read < n)
    (hc : c = min (n - read) (1024 - p % 1024)) :
    readLoop d x n (fuel + 1) read p buf = readLoop d x n fuel (read + c : ℕ) (p + c : ℕ)
      (buf ++ (List.range c).map fun i => d.byte x (p + i)) := by
  have hk : p / 1024 < 12 := by omega
  obtain ⟨huint, hmod⟩ := uintOf_tdiv hp
  obtain ⟨b, hb⟩ : ∃ b : ℕ, x.addr (p / 1024) = b := ⟨(x.addr (p / 1024)).toNat, by omega⟩
  have hread : dataRead d (x.addrs ⟨p / 1024, hk⟩).toInt = some (d.data b) := by
    rw [← Inode.addr_of_lt x hk, hb, dataRead_of_lt d (by omega)]
  have hchunk : min ((n : ℤ) - read) (blockSize - ((p % 1024 : ℕ) : ℤ)) = c := by
    simp only [blockSize]
    omega
  have hne : x.addrs ⟨p / 1024, hk⟩ ≠ -1 := by
    rw [ne_eq, Inode.addrs_eq_neg_one x hk]
    omega
  have hbuf := window_chunk d x (p := p) (c := c) (by omega)
  rw [hb, Int.toNat_natCast] at hbuf
  rw [readLoop, if_pos (by omega)]
  simp only [huint, hmod, hchunk]
  rw [dif_pos hk, if_neg hne, hread]
  simp only []
  rw [if_pos (by simp only [blockSize]; omega)]
  simp only [Int.toNat_natCast]
  rw [hbuf, Nat.cast_add, Nat.cast_add]

theorem map_range_byte (d : Disk) (x : Inode) (p c k : ℕ) :
    (List.range (c + k)).map (fun i => d.byte x (p + i)) =
      (List.range c).map (fun i => d.byte x (p + i)) ++
        (List.range k).map fun i => d.byte x (p + c + i) := by
  rw [List.range_add, List.map_append, List.map_map]
  simp only [Function.comp_def, Nat.add_assoc]

theorem readLoop_spec (d : Disk) {x : Inode} {m : ℕ} (hx : Present x m) (hm : m ≤ 12288) (n : ℕ) :
    ∀ (fuel read p : ℕ) (buf : List UInt8), read ≤ n → n - read ≤ fuel → p + (n - read) ≤ m →
      readLoop d x n fuel read p buf =
        .ok ((n : ℤ), buf ++ (List.range (n - read)).map fun i => d.byte x (p + i)) := by
  intro fuel
  induction fuel with
  | zero =>
    intro read p buf hr hf _
    have hdone : n - read = 0 := by omega
    simp [readLoop, hdone]
    omega
  | succ fuel ih =>
    intro read p buf hr hf hp
    by_cases hlt : read < n
    · obtain ⟨c, hc⟩ : ∃ c : ℕ, c = min (n - read) (1024 - p % 1024) := ⟨_, rfl⟩
      rw [readLoop_round d buf (by omega) (hx (p / 1024) (by omega) (by omega)) hlt hc,
        ih (read + c) (p + c) _ (by omega) (by omega) (by omega), List.append_assoc,
        ← map_range_byte, show c + (n - (read + c)) = n - read by omega]
    · have hdone : n - read = 0 := by omega
      rw [readLoop, if_neg (by omega), hdone]
      simp

/-- A read inside the file returns exactly the bytes asked for. -/
theorem fileRead_inside (d : Disk) {x : Inode} (hx : x.Legible) {p n : ℕ} (h : p + n ≤ x.len) :
    fileRead d x p n = .ok ((n : ℤ), (List.range n).map fun i => d.byte x (p + i)) := by
  have hnonneg := hx.nonneg
  have hle := hx.le_max
  have hs : x.size.toInt = x.len := by unfold Inode.len; omega
  have hw : wrapInt ((p : ℤ) + n) = p + n := by
    unfold wrapInt
    rw [Int.bmod_eq_of_le (by omega) (by omega)]
  rw [fileRead, hw, if_neg (by omega), if_neg (by omega), if_neg (by simp; omega), Int.toNat_natCast]
  simpa using readLoop_spec d hx.present (by omega) n n 0 p [] (by omega) (by omega) (by omega)

end PicoShell.Fs
