import PicoShell.Fs.Bitmap

/-! `inode.c` and `data.c`, and what each of their operations does to the four parts
of the disk they work on: the inode table, the data region and the two bitmaps. -/

namespace PicoShell.Fs

/-- `IBLOCK`: the block that holds an inode. -/
def iblock (inum : ℕ) : ℕ := inum / inodesPerBlock + inodeTableStart
/-- `IOFFSET`: the inode's offset in its block. -/
def ioffset (inum : ℕ) : ℕ := inum % inodesPerBlock * inodeSize
/-- `DBLOCK`: the physical block of a data block. -/
def dblock (dnum : ℕ) : ℕ := dnum + dataRegionStart

/-- `inode_alloc`: the return value, the disk, and the inode with its number set. -/
def inodeAlloc (disk : Disk) (inode : Inode) : Exec (ℤ × Disk × Inode) :=
  match bitmapFindFree disk inodeBitmapBlock numInodes with
  | none => .ok (-1, disk, inode)
  | some inum =>
    let inode := { inode with inum := Int32.ofNat inum }
    match blockRead disk (iblock inum) with
    | none => .ok (-1, disk, inode)
    | some block =>
      match blockWrite disk (block.splice (ioffset inum) inode.encode) (iblock inum) with
      | none => .ok (-1, disk, inode)
      | some disk₁ => do
        match ← bitmapAlloc disk₁ inodeBitmapBlock inum with
        | none => return (-1, disk₁, inode)
        | some disk₂ => return (0, disk₂, inode)

/-- `inode_free`; its range check prints a message and goes on. -/
def inodeFree (disk : Disk) (inum : ℤ) : Exec (Option Disk) :=
  bitmapFree disk inodeBitmapBlock inum

def inodeRead (disk : Disk) (inum : ℤ) : Option Inode :=
  if inum < 0 ∨ inum ≥ numInodes then none
  else
    match blockRead disk (iblock inum.toNat) with
    | none => none
    | some block => some (Inode.decode (block.slice (ioffset inum.toNat) 64))

def inodeUpdate (disk : Disk) (inode : Inode) (inum : ℤ) : Option Disk :=
  if inum < 0 ∨ inum ≥ numInodes then none
  else
    match blockRead disk (iblock inum.toNat) with
    | none => none
    | some block =>
      blockWrite disk (block.splice (ioffset inum.toNat) inode.encode) (iblock inum.toNat)

/-- `data_alloc`: the block number, or `-1`, and the disk. -/
def dataAlloc (disk : Disk) : Exec (ℤ × Disk) :=
  match bitmapFindFree disk dataBitmapBlock numDataBlocks with
  | none => .ok (-1, disk)
  | some dnum =>
    match blockWrite disk (Bytes.zero 1024) (dblock dnum) with
    | none => .ok (-1, disk)
    | some disk₁ => do
      match ← bitmapAlloc disk₁ dataBitmapBlock dnum with
      | none => return (-1, disk₁)
      | some disk₂ => return (dnum, disk₂)

def dataFree (disk : Disk) (dnum : ℤ) : Exec (Option Disk) :=
  if dnum < 0 ∨ dnum ≥ numDataBlocks then .ok none
  else bitmapFree disk dataBitmapBlock dnum

def dataRead (disk : Disk) (dnum : ℤ) : Option Block :=
  if dnum < 0 ∨ dnum ≥ numDataBlocks then none
  else blockRead disk (dblock dnum.toNat)

def dataUpdate (disk : Disk) (block : Block) (dnum : ℤ) : Option Disk :=
  if dnum < 0 ∨ dnum ≥ numDataBlocks then none
  else blockWrite disk block (dblock dnum.toNat)

/-- `inode_datamap`: the block address, or `-1`, with the disk and the inode. -/
def inodeDatamap (disk : Disk) (inode : Inode) (n : ℕ) : Exec (ℤ × Disk × Inode) :=
  if h : n < 12 then
    if inode.addrs ⟨n, h⟩ = -1 then do
      let (dnum, disk₁) ← dataAlloc disk
      if dnum = -1 then
        return (-1, disk₁, inode)
      else
        return (dnum, disk₁,
          { inode with addrs := Function.update inode.addrs ⟨n, h⟩ (Int32.ofInt dnum) })
    else .ok ((inode.addrs ⟨n, h⟩).toInt, disk, inode)
  else .error .index

namespace Disk

variable (d : Disk)

def inode (i : ℕ) : Inode := Inode.decode (d.slice (3072 + 64 * i) 64)

def data (k : ℕ) : Block := d.block (8 + k)

def inodeBit (i : ℕ) : Bool := (d.block 1).bit i

def dataBit (k : ℕ) : Bool := (d.block 2).bit k

@[simp] theorem inodeBit_zeroed (i : ℕ) : zeroed.inodeBit i = false := by
  simp [zeroed, inodeBit, block, Block.bit]

@[simp] theorem dataBit_zeroed (k : ℕ) : zeroed.dataBit k = false := by
  simp [zeroed, dataBit, block, Block.bit]

@[simp] theorem data_zeroed (k : ℕ) : zeroed.data k = Bytes.zero 1024 := by
  simp [zeroed, data, block]

def putBlock (k : ℕ) (b : Block) : Disk := d.splice (1024 * k) b

def putInode (i : ℕ) (x : Inode) : Disk := d.splice (3072 + 64 * i) x.encode

def putData (k : ℕ) (b : Block) : Disk := d.putBlock (8 + k) b

def setInodeBit (i : ℕ) : Disk := d.putBlock 1 ((d.block 1).setBit i)

def setDataBit (k : ℕ) : Disk := d.putBlock 2 ((d.block 2).setBit k)

def clearDataBit (k : ℕ) : Disk := d.putBlock 2 ((d.block 2).clearBit k)

def clearInodeBit (i : ℕ) : Disk := d.putBlock 1 ((d.block 1).clearBit i)

theorem block_putBlock {k : ℕ} (k' : ℕ) (b : Block) (hk : k < 128) :
    (d.putBlock k b).block k' = if k' = k then b else d.block k' := by
  unfold block putBlock
  split_ifs with h
  · subst h
    exact Bytes.slice_splice_self d b (by omega)
  · exact Bytes.slice_splice_disjoint d b (by omega)

theorem inode_putBlock {k i : ℕ} (b : Block) (hi : i < 80) (hk : k < 3 ∨ 8 ≤ k) :
    (d.putBlock k b).inode i = d.inode i := by
  unfold inode putBlock
  rw [Bytes.slice_splice_disjoint d b (by omega)]

theorem block_putInode {i k : ℕ} (x : Inode) (hi : i < 80) (hk : k < 3 ∨ 8 ≤ k) :
    (d.putInode i x).block k = d.block k := by
  unfold block putInode
  exact Bytes.slice_splice_disjoint d _ (by omega)

theorem inode_putInode {i : ℕ} (j : ℕ) (x : Inode) (hi : i < 80) :
    (d.putInode i x).inode j = if j = i then x else d.inode j := by
  unfold inode putInode
  split_ifs with h
  · subst h
    rw [Bytes.slice_splice_self d _ (by omega), Inode.decode_encode]
  · rw [Bytes.slice_splice_disjoint d _ (by omega)]

@[simp] theorem data_putInode {i : ℕ} (k : ℕ) (x : Inode) (hi : i < 80) :
    (d.putInode i x).data k = d.data k := block_putInode d x hi (by omega)

@[simp] theorem inodeBit_putInode {i : ℕ} (j : ℕ) (x : Inode) (hi : i < 80) :
    (d.putInode i x).inodeBit j = d.inodeBit j := by
  rw [inodeBit, block_putInode d x hi (by omega)]; rfl

@[simp] theorem dataBit_putInode {i : ℕ} (k : ℕ) (x : Inode) (hi : i < 80) :
    (d.putInode i x).dataBit k = d.dataBit k := by
  rw [dataBit, block_putInode d x hi (by omega)]; rfl

@[simp] theorem inode_putData {i : ℕ} (k : ℕ) (b : Block) (hi : i < 80) :
    (d.putData k b).inode i = d.inode i := inode_putBlock d b hi (by omega)

theorem data_putData {k : ℕ} (k' : ℕ) (b : Block) (hk : k < 120) :
    (d.putData k b).data k' = if k' = k then b else d.data k' := by
  unfold data putData
  rw [block_putBlock d _ _ (by omega)]
  simp

@[simp] theorem inodeBit_putData {k : ℕ} (i : ℕ) (b : Block) (hk : k < 120) :
    (d.putData k b).inodeBit i = d.inodeBit i := by
  unfold inodeBit putData
  rw [block_putBlock d _ _ (by omega), if_neg (by omega)]

@[simp] theorem dataBit_putData {k : ℕ} (k' : ℕ) (b : Block) (hk : k < 120) :
    (d.putData k b).dataBit k' = d.dataBit k' := by
  unfold dataBit putData
  rw [block_putBlock d _ _ (by omega), if_neg (by omega)]

@[simp] theorem inode_setInodeBit {i j : ℕ} (hj : j < 80) :
    (d.setInodeBit i).inode j = d.inode j := inode_putBlock d _ hj (by omega)

@[simp] theorem data_setInodeBit (i k : ℕ) : (d.setInodeBit i).data k = d.data k := by
  unfold data setInodeBit
  rw [block_putBlock d _ _ (by omega), if_neg (by omega)]

theorem inodeBit_setInodeBit {i : ℕ} (j : ℕ) (hi : i < 80) :
    (d.setInodeBit i).inodeBit j = (decide (j = i) || d.inodeBit j) := by
  unfold inodeBit setInodeBit
  rw [block_putBlock d _ _ (by omega), if_pos rfl, Block.bit_setBit _ _ (by omega)]

@[simp] theorem dataBit_setInodeBit (i k : ℕ) : (d.setInodeBit i).dataBit k = d.dataBit k := by
  unfold dataBit setInodeBit
  rw [block_putBlock d _ _ (by omega), if_neg (by omega)]

@[simp] theorem inode_setDataBit {j : ℕ} (k : ℕ) (hj : j < 80) :
    (d.setDataBit k).inode j = d.inode j := inode_putBlock d _ hj (by omega)

@[simp] theorem data_setDataBit (k k' : ℕ) : (d.setDataBit k).data k' = d.data k' := by
  unfold data setDataBit
  rw [block_putBlock d _ _ (by omega), if_neg (by omega)]

@[simp] theorem inodeBit_setDataBit (k i : ℕ) : (d.setDataBit k).inodeBit i = d.inodeBit i := by
  unfold inodeBit setDataBit
  rw [block_putBlock d _ _ (by omega), if_neg (by omega)]

theorem dataBit_setDataBit {k : ℕ} (k' : ℕ) (hk : k < 120) :
    (d.setDataBit k).dataBit k' = (decide (k' = k) || d.dataBit k') := by
  unfold dataBit setDataBit
  rw [block_putBlock d _ _ (by omega), if_pos rfl, Block.bit_setBit _ _ (by omega)]

theorem foldl_setDataBit (d : Disk) (l : List ℕ) (hl : ∀ b ∈ l, b < 120) :
    (∀ i < 80, (l.foldl setDataBit d).inode i = d.inode i) ∧
    (∀ b, (l.foldl setDataBit d).data b = d.data b) ∧
    (∀ i, (l.foldl setDataBit d).inodeBit i = d.inodeBit i) ∧
    ∀ b, (l.foldl setDataBit d).dataBit b = (decide (b ∈ l) || d.dataBit b) := by
  induction l generalizing d with
  | nil => simp
  | cons k l ih =>
    have hk := hl k List.mem_cons_self
    obtain ⟨hinode, hdata, hbit, hbits⟩ := ih (d.setDataBit k) fun b hb => hl b (List.mem_cons_of_mem k hb)
    rw [List.foldl_cons]
    refine ⟨?_, ?_, ?_, ?_⟩
    · intro i hi
      rw [hinode i hi, inode_setDataBit _ _ hi]
    · intro b
      rw [hdata, data_setDataBit]
    · intro i
      rw [hbit, inodeBit_setDataBit]
    · intro b
      rw [hbits, dataBit_setDataBit _ _ hk, ← Bool.or_assoc, Bool.or_comm (decide (b ∈ l))]
      simp

@[simp] theorem inode_clearDataBit {j : ℕ} (k : ℕ) (hj : j < 80) :
    (d.clearDataBit k).inode j = d.inode j := inode_putBlock d _ hj (by omega)

@[simp] theorem data_clearDataBit (k k' : ℕ) : (d.clearDataBit k).data k' = d.data k' := by
  unfold data clearDataBit
  rw [block_putBlock d _ _ (by omega), if_neg (by omega)]

@[simp] theorem inodeBit_clearDataBit (k i : ℕ) :
    (d.clearDataBit k).inodeBit i = d.inodeBit i := by
  unfold inodeBit clearDataBit
  rw [block_putBlock d _ _ (by omega), if_neg (by omega)]

theorem dataBit_clearDataBit {k : ℕ} (k' : ℕ) (hk : k < 120) :
    (d.clearDataBit k).dataBit k' = (!decide (k' = k) && d.dataBit k') := by
  unfold dataBit clearDataBit
  rw [block_putBlock d _ _ (by omega), if_pos rfl, Block.bit_clearBit _ _ (by omega)]

theorem inodeBit_clearInodeBit {i : ℕ} (j : ℕ) (hi : i < 80) :
    (d.clearInodeBit i).inodeBit j = (!decide (j = i) && d.inodeBit j) := by
  unfold inodeBit clearInodeBit
  rw [block_putBlock d _ _ (by omega), if_pos rfl, Block.bit_clearBit _ _ (by omega)]

@[simp] theorem dataBit_clearInodeBit (i k : ℕ) : (d.clearInodeBit i).dataBit k = d.dataBit k := by
  unfold dataBit clearInodeBit
  rw [block_putBlock d _ _ (by omega), if_neg (by omega)]

end Disk

theorem iblock_lt {i : ℕ} (h : i < 80) : iblock i < 128 := by
  simp [iblock]
  omega

/-- Block and offset of an inode add up to its place in the table. -/
theorem iblock_ioffset (i : ℕ) :
    1024 * iblock i + ioffset i = 3072 + 64 * i ∧ ioffset i + 64 ≤ 1024 := by
  simp [iblock, ioffset]
  omega

theorem block_slice_inode (d : Disk) (i : ℕ) :
    Inode.decode ((d.block (iblock i)).slice (ioffset i) 64) = d.inode i := by
  obtain ⟨hsum, hlt⟩ := iblock_ioffset i
  unfold Disk.inode Disk.block
  congr 1
  funext k
  rw [Bytes.slice_apply, Bytes.get_slice _ (by omega), Bytes.slice_apply]
  congr 1
  omega

theorem putBlock_splice_inode (d : Disk) (i : ℕ) (x : Inode) :
    d.splice (1024 * iblock i) ((d.block (iblock i)).splice (ioffset i) x.encode) =
      d.putInode i x := by
  obtain ⟨hsum, hlt⟩ := iblock_ioffset i
  rw [Disk.putInode, ← hsum]
  exact Bytes.splice_window d x.encode hlt

theorem inodeRead_of_lt (d : Disk) {i : ℕ} (h : i < 80) : inodeRead d i = some (d.inode i) := by
  rw [inodeRead, if_neg (by simp; omega), Int.toNat_natCast, blockRead_of_lt d (iblock_lt h)]
  exact congrArg some (block_slice_inode d i)

theorem inodeUpdate_of_lt (d : Disk) (x : Inode) {i : ℕ} (h : i < 80) :
    inodeUpdate d x i = some (d.putInode i x) := by
  rw [inodeUpdate, if_neg (by simp; omega), Int.toNat_natCast, blockRead_of_lt d (iblock_lt h)]
  simp only [blockWrite_of_lt d _ (iblock_lt h), putBlock_splice_inode]

theorem dataRead_of_lt (d : Disk) {k : ℕ} (h : k < 120) : dataRead d k = some (d.data k) := by
  rw [dataRead, if_neg (by simp; omega), Int.toNat_natCast, dblock,
    blockRead_of_lt d (by simp; omega), Disk.data, Nat.add_comm]

theorem dataUpdate_of_lt (d : Disk) (b : Block) {k : ℕ} (h : k < 120) :
    dataUpdate d b k = some (d.putData k b) := by
  rw [dataUpdate, if_neg (by simp; omega), Int.toNat_natCast, dblock,
    blockWrite_of_lt d _ (by simp; omega), Disk.putData, Nat.add_comm]
  rfl

/-- The disk after block `k` was taken by `data_alloc`. -/
def Disk.takeData (d : Disk) (k : ℕ) : Disk := (d.putData k (Bytes.zero 1024)).setDataBit k

namespace Disk

variable (d : Disk) {k : ℕ}

theorem dataBit_takeData (k' : ℕ) (hk : k < 120) :
    (d.takeData k).dataBit k' = (decide (k' = k) || d.dataBit k') := by
  rw [takeData, dataBit_setDataBit _ _ hk, dataBit_putData _ _ _ hk]

theorem data_takeData (k' : ℕ) (hk : k < 120) :
    (d.takeData k).data k' = if k' = k then Bytes.zero 1024 else d.data k' := by
  rw [takeData, data_setDataBit, data_putData _ _ _ hk]

@[simp] theorem inode_takeData {i : ℕ} (hi : i < 80) : (d.takeData k).inode i = d.inode i := by
  rw [takeData, inode_setDataBit _ _ hi, inode_putData _ _ _ hi]

@[simp] theorem inodeBit_takeData (i : ℕ) (hk : k < 120) :
    (d.takeData k).inodeBit i = d.inodeBit i := by
  rw [takeData, inodeBit_setDataBit, inodeBit_putData _ _ _ hk]

end Disk

/-- `data_alloc` fails exactly when no block is free, and takes the least one otherwise. -/
theorem dataAlloc_cases (d : Disk) :
    ((∀ k < 120, d.dataBit k = true) ∧ dataAlloc d = .ok (-1, d)) ∨
    ∃ k, k < 120 ∧ d.dataBit k = false ∧ (∀ j < k, d.dataBit j = true) ∧
      dataAlloc d = .ok ((k : ℤ), d.takeData k) := by
  cases hf : bitmapFindFree d dataBitmapBlock numDataBlocks with
  | none =>
    refine .inl ⟨(bitmapFindFree_eq_none d (by decide) le_rfl).mp hf, ?_⟩
    simp only [dataAlloc, hf]
  | some k =>
    obtain ⟨hk, hfree, hleast⟩ := bitmapFindFree_eq_some d (by decide) le_rfl hf
    have hk : k < 120 := hk
    have hwrite : blockWrite d (Bytes.zero 1024) (dblock k) =
        some (d.putData k (Bytes.zero 1024)) := by
      rw [blockWrite_of_lt d _ (by simp [dblock]; omega), dblock, Nat.add_comm]
      rfl
    have hbit : ((d.putData k (Bytes.zero 1024)).block dataBitmapBlock).bit k = false := by
      have := Disk.dataBit_putData d k (Bytes.zero 1024) hk
      exact this.trans hfree
    refine .inr ⟨k, hk, hfree, hleast, ?_⟩
    simp only [dataAlloc, hf, hwrite]
    rw [bitmapAlloc_of_lt _ (by decide) (by omega), hbit]
    rfl

/-- The disk and the inode after `inode_alloc` took slot `i`. -/
def Disk.takeInode (d : Disk) (x : Inode) (i : ℕ) : Disk :=
  (d.putInode i { x with inum := Int32.ofNat i }).setInodeBit i

namespace Disk

variable (d : Disk) (x : Inode) {i : ℕ}

theorem inode_takeInode {j : ℕ} (hi : i < 80) (hj : j < 80) : (d.takeInode x i).inode j =
    if j = i then { x with inum := Int32.ofNat i } else d.inode j := by
  rw [takeInode, inode_setInodeBit _ hj, inode_putInode _ _ _ hi]

@[simp] theorem data_takeInode (k : ℕ) (hi : i < 80) : (d.takeInode x i).data k = d.data k := by
  rw [takeInode, data_setInodeBit, data_putInode _ _ _ hi]

@[simp] theorem dataBit_takeInode (k : ℕ) (hi : i < 80) :
    (d.takeInode x i).dataBit k = d.dataBit k := by
  rw [takeInode, dataBit_setInodeBit, dataBit_putInode _ _ _ hi]

theorem inodeBit_takeInode (j : ℕ) (hi : i < 80) :
    (d.takeInode x i).inodeBit j = (decide (j = i) || d.inodeBit j) := by
  rw [takeInode, inodeBit_setInodeBit _ _ hi, inodeBit_putInode _ _ _ hi]

end Disk

/-- `inode_alloc` fails exactly when no slot is free, and takes the least one otherwise. -/
theorem inodeAlloc_cases (d : Disk) (x : Inode) :
    ((∀ i < 80, d.inodeBit i = true) ∧ inodeAlloc d x = .ok (-1, d, x)) ∨
    ∃ i, i < 80 ∧ d.inodeBit i = false ∧ (∀ j < i, d.inodeBit j = true) ∧
      inodeAlloc d x = .ok (0, d.takeInode x i, { x with inum := Int32.ofNat i }) := by
  cases hf : bitmapFindFree d inodeBitmapBlock numInodes with
  | none =>
    refine .inl ⟨(bitmapFindFree_eq_none d (by decide) (by decide)).mp hf, ?_⟩
    simp only [inodeAlloc, hf]
  | some i =>
    obtain ⟨hi, hfree, hleast⟩ := bitmapFindFree_eq_some d (by decide) (by decide) hf
    have hi : i < 80 := hi
    refine .inr ⟨i, hi, hfree, hleast, ?_⟩
    have hbit : ((d.putInode i { x with inum := Int32.ofNat i }).block inodeBitmapBlock).bit i =
        false := by
      have := Disk.inodeBit_putInode d i { x with inum := Int32.ofNat i } hi
      exact this.trans hfree
    simp only [inodeAlloc, hf, blockRead_of_lt d (iblock_lt hi), blockWrite_of_lt d _ (iblock_lt hi),
      putBlock_splice_inode]
    rw [bitmapAlloc_of_lt _ (by decide) (by omega), hbit]
    rfl

theorem dataFree_of_lt (d : Disk) {k : ℕ} (h : k < 120) :
    dataFree d k = .ok (if d.dataBit k then some (d.clearDataBit k) else none) := by
  rw [dataFree, if_neg (by simp; omega), bitmapFree_of_lt d (by decide) (by omega)]
  rfl

theorem dataFree_out_of_range (d : Disk) {k : ℤ} (h : k < 0 ∨ 120 ≤ k) :
    dataFree d k = .ok none := if_pos h

theorem inodeFree_of_lt (d : Disk) {i : ℕ} (h : i < 80) :
    inodeFree d i = .ok (if d.inodeBit i then some (d.clearInodeBit i) else none) := by
  rw [inodeFree, bitmapFree_of_lt d (by decide) (by omega)]
  rfl

theorem inodeFree_of_free (d : Disk) {i : ℕ} (hbit : d.inodeBit i = false) :
    inodeFree d i = if i < 8192 then .ok none else .error .index := by
  rw [inodeFree]
  by_cases hlt : i < 8192
  · have hfree : (d.block 1).bit i = false := hbit
    have hnone := bitmapFree_of_lt d (k := 1) (by decide) hlt
    rw [hfree] at hnone
    rw [if_pos hlt]
    exact hnone
  · have hout : (i : ℤ) < 0 ∨ 8192 ≤ (i : ℤ) := by omega
    have hfault := bitmapFree_out_of_range d (k := 1) (by decide) hout
    rw [if_neg (by omega)] at hfault
    rw [if_neg hlt]
    exact hfault

end PicoShell.Fs
