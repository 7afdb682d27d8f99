import PicoShell.Fs.Inode
import PicoShell.Lib.LastWrite

namespace PicoShell.Fs

inductive UpdateCall
  | inodeUpdate (inode : Inode) (inum : ℤ)
  | dataUpdate (block : Block) (dnum : ℤ)

namespace UpdateCall

/-- The disk after the call; `none` where it returns `-1`. -/
def exec (d : Disk) : UpdateCall → Option Disk
  | inodeUpdate inode inum => Fs.inodeUpdate d inode inum
  | dataUpdate block dnum => Fs.dataUpdate d block dnum

/-- The slot or the block is one of the disk. -/
def InRange : UpdateCall → Prop
  | inodeUpdate _ inum => 0 ≤ inum ∧ inum < numInodes
  | dataUpdate _ dnum => 0 ≤ dnum ∧ dnum < numDataBlocks

def inodeAt (i : ℤ) : UpdateCall → Option Inode
  | inodeUpdate inode inum => if inum = i then some inode else none
  | dataUpdate _ _ => none

def dataAt (k : ℤ) : UpdateCall → Option Block
  | inodeUpdate _ _ => none
  | dataUpdate block dnum => if dnum = k then some block else none

variable {d d' : Disk} {call : UpdateCall} {i k : ℕ}

/-- A call in range puts an inode or a block in its place. -/
theorem exec_cases (hcall : call.InRange) (d : Disk) :
    (∃ (x : Inode) (j : ℕ), j < 80 ∧ call = inodeUpdate x j ∧ call.exec d = some (d.putInode j x)) ∨
    ∃ (b : Block) (l : ℕ), l < 120 ∧ call = dataUpdate b l ∧ call.exec d = some (d.putData l b) := by
  cases call with
  | inodeUpdate x inum =>
    obtain ⟨hlo, hhi⟩ := hcall
    lift inum to ℕ using hlo
    have hj : inum < 80 := Int.ofNat_lt.mp hhi
    exact .inl ⟨x, inum, hj, rfl, inodeUpdate_of_lt d x hj⟩
  | dataUpdate b dnum =>
    obtain ⟨hlo, hhi⟩ := hcall
    lift dnum to ℕ using hlo
    have hl : dnum < 120 := Int.ofNat_lt.mp hhi
    exact .inr ⟨b, dnum, hl, rfl, dataUpdate_of_lt d b hl⟩

theorem exec_inode (hi : i < 80) (hcall : call.InRange) (h : call.exec d = some d') :
    d'.inode i = (call.inodeAt i).getD (d.inode i) := by
  rcases exec_cases hcall d with ⟨x, j, hj, rfl, heq⟩ | ⟨b, l, hl, rfl, heq⟩
  · obtain rfl := Option.some.inj (heq.symm.trans h)
    rw [Disk.inode_putInode _ _ _ hj, inodeAt]
    by_cases hij : i = j
    · rw [if_pos hij, if_pos (by rw [hij]), Option.getD_some]
    · rw [if_neg hij, if_neg (by omega), Option.getD_none]
  · obtain rfl := Option.some.inj (heq.symm.trans h)
    exact Disk.inode_putData _ _ _ hi

theorem exec_data (hcall : call.InRange) (h : call.exec d = some d') :
    d'.data k = (call.dataAt k).getD (d.data k) := by
  rcases exec_cases hcall d with ⟨x, j, hj, rfl, heq⟩ | ⟨b, l, hl, rfl, heq⟩
  · obtain rfl := Option.some.inj (heq.symm.trans h)
    exact Disk.data_putInode _ _ _ hj
  · obtain rfl := Option.some.inj (heq.symm.trans h)
    rw [Disk.data_putData _ _ _ hl, dataAt]
    by_cases hkl : k = l
    · rw [if_pos hkl, if_pos (by rw [hkl]), Option.getD_some]
    · rw [if_neg hkl, if_neg (by omega), Option.getD_none]

/-- The superblock and the bitmaps lie in front of the table. -/
theorem exec_block (hk : k < 3) (hcall : call.InRange) (h : call.exec d = some d') :
    d'.block k = d.block k := by
  rcases exec_cases hcall d with ⟨x, j, hj, rfl, heq⟩ | ⟨b, l, hl, rfl, heq⟩
  · obtain rfl := Option.some.inj (heq.symm.trans h)
    exact Disk.block_putInode _ _ hj (.inl hk)
  · obtain rfl := Option.some.inj (heq.symm.trans h)
    rw [Disk.putData, Disk.block_putBlock _ _ _ (by omega), if_neg (by omega)]

end UpdateCall

open UpdateCall LastWrite

/-- Every slot and every data block keeps what was written to it last, in any order of updates. -/
theorem updates_read_last (d : Disk) (calls : List UpdateCall) (hcalls : ∀ call ∈ calls, call.InRange) :
    ∃ d', calls.foldlM UpdateCall.exec d = some d' ∧
      (∀ i : ℤ, 0 ≤ i → i < numInodes →
        inodeRead d' i = (last (inodeAt i) calls).or (inodeRead d i) ∧ inodeRead d' i ≠ none) ∧
      (∀ k : ℤ, 0 ≤ k → k < numDataBlocks →
        dataRead d' k = (last (dataAt k) calls).or (dataRead d k) ∧ dataRead d' k ≠ none) ∧
      blockRead d' 0 = blockRead d 0 ∧
      blockRead d' inodeBitmapBlock = blockRead d inodeBitmapBlock ∧
      blockRead d' dataBitmapBlock = blockRead d dataBitmapBlock := by
  have htotal : ∀ (d : Disk) (call : UpdateCall), call.InRange → ∃ d', call.exec d = some d' := by
    intro d call hcall
    rcases exec_cases hcall d with ⟨x, j, -, -, heq⟩ | ⟨b, l, -, -, heq⟩
    · exact ⟨_, heq⟩
    · exact ⟨_, heq⟩
  obtain ⟨d', hrun⟩ := exists_run htotal hcalls d
  have hblock : ∀ k < 3, blockRead d' (k : ℕ) = blockRead d (k : ℕ) := by
    intro k hk
    have hsame : d'.block k = d.block k :=
      read_run_same (Disk.block · k) (fun _ _ _ hcall h => exec_block hk hcall h) hcalls hrun
    rw [blockRead_of_lt _ (by omega), blockRead_of_lt _ (by omega), hsame]
  refine ⟨d', hrun, ?_, ?_, hblock 0 (by decide), hblock 1 (by decide), hblock 2 (by decide)⟩
  · intro i hlo hhi
    lift i to ℕ using hlo
    have hi : i < 80 := Int.ofNat_lt.mp hhi
    have hread : d'.inode i = (last (inodeAt i) calls).getD (d.inode i) :=
      read_run (Disk.inode · i) (fun _ _ _ hcall h => exec_inode hi hcall h) hcalls hrun
    rw [inodeRead_of_lt _ hi, inodeRead_of_lt _ hi, hread, Option.or_some]
    exact ⟨rfl, Option.some_ne_none _⟩
  · intro k hlo hhi
    lift k to ℕ using hlo
    have hk : k < 120 := Int.ofNat_lt.mp hhi
    have hread : d'.data k = (last (dataAt k) calls).getD (d.data k) :=
      read_run (Disk.data · k) (fun _ _ _ hcall h => exec_data hcall h) hcalls hrun
    rw [dataRead_of_lt _ hk, dataRead_of_lt _ hk, hread, Option.or_some]
    exact ⟨rfl, Option.some_ne_none _⟩

/-- Two updates of neighbouring slots, and of the first one again after a block was written. -/
def fourUpdates : List UpdateCall :=
  [.inodeUpdate ⟨.fileT, 15, 0, 1, fun _ => -1⟩ 15, .inodeUpdate ⟨.fileT, 16, 0, 1, fun _ => -1⟩ 16,
    .dataUpdate (Bytes.zero 1024) 0, .inodeUpdate ⟨.directoryT, 15, 0, 2, fun _ => -1⟩ 15]

theorem updates_read_last_four : ∃ d', fourUpdates.foldlM UpdateCall.exec .zeroed = some d' ∧
    inodeRead d' 15 = some ⟨.directoryT, 15, 0, 2, fun _ => -1⟩ ∧
    inodeRead d' 16 = some ⟨.fileT, 16, 0, 1, fun _ => -1⟩ ∧
    dataRead d' 0 = some (Bytes.zero 1024) := by
  obtain ⟨d', hrun, hinode, hdata, -⟩ := updates_read_last .zeroed fourUpdates
    (by simp [fourUpdates, UpdateCall.InRange])
  exact ⟨d', hrun, (hinode 15 (by decide) (by decide)).1, (hinode 16 (by decide) (by decide)).1,
    (hdata 0 (by decide) (by decide)).1⟩

end PicoShell.Fs
