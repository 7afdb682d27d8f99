import PicoShell.Fs.WorkingDirectory

namespace PicoShell.Fs

open Exec (Ensures)

variable {d d' : Disk} {n : ℕ}

def SameFirst (d d' : Disk) : Prop := d'.block 0 = d.block 0

theorem SameFirst.trans {d'' : Disk} (h : SameFirst d d') (h' : SameFirst d' d'') :
    SameFirst d d'' :=
  Eq.trans h' h

theorem blockWrite_first {buf : Block} {bnum : ℤ} (hpos : 0 < bnum) :
    ∀ d' ∈ blockWrite d buf bnum, SameFirst d d' := by
  intro d' hd'
  by_cases hrange : bnum < 128
  · obtain ⟨k, rfl⟩ := Int.eq_ofNat_of_zero_le hpos.le
    have hk : k < 128 := by omega
    rw [blockWrite_of_lt d buf hk] at hd'
    rw [← Option.some.inj hd']
    exact Bytes.slice_splice_disjoint _ _ (.inl (by omega))
  · have hout : bnum < 0 ∨ bnum ≥ numBlocks := .inr (Int.not_lt.mp hrange)
    rw [blockWrite, if_pos hout] at hd'
    cases hd'

theorem iblock_pos (inum : ℕ) : 0 < (iblock inum : ℤ) :=
  Int.natCast_pos.mpr (Nat.add_pos_right _ (by decide))

theorem dblock_pos (dnum : ℕ) : 0 < (dblock dnum : ℤ) :=
  Int.natCast_pos.mpr (Nat.add_pos_right _ (by decide))

theorem bitmapAlloc_first {bnum offset : ℤ} (hpos : 0 < bnum) :
    Ensures (bitmapAlloc d bnum offset) fun r => ∀ d' ∈ r, SameFirst d d' := by
  unfold bitmapAlloc
  split
  · exact .ok fun _ h => by cases h
  · refine .bind .trivial fun ix _ => .ite (fun _ => .ok fun _ h => by cases h) fun _ => ?_
    exact .ok (blockWrite_first hpos)

theorem bitmapFree_first {bnum offset : ℤ} (hpos : 0 < bnum) :
    Ensures (bitmapFree d bnum offset) fun r => ∀ d' ∈ r, SameFirst d d' := by
  unfold bitmapFree
  split
  · exact .ok fun _ h => by cases h
  · refine .bind .trivial fun ix _ => .ite (fun _ => .ok fun _ h => by cases h) fun _ => ?_
    exact .ok (blockWrite_first hpos)

theorem inodeAlloc_first (d : Disk) (inode : Inode) :
    Ensures (inodeAlloc d inode) fun r => SameFirst d r.2.1 := by
  unfold inodeAlloc
  split
  · exact .ok rfl
  split
  · exact .ok rfl
  dsimp only
  split
  · exact .ok rfl
  · rename_i hwrite
    have hfirst := blockWrite_first (iblock_pos _) _ hwrite
    refine .bind (bitmapAlloc_first (by decide)) fun r hr => ?_
    cases r with
    | none => exact .ok hfirst
    | some d' => exact .ok (hfirst.trans (hr d' rfl))

theorem inodeFree_first (d : Disk) (inum : ℤ) :
    Ensures (inodeFree d inum) fun r => ∀ d' ∈ r, SameFirst d d' :=
  bitmapFree_first (by decide)

theorem inodeUpdate_first {inode : Inode} {inum : ℤ} :
    ∀ d' ∈ inodeUpdate d inode inum, SameFirst d d' := by
  intro d' h
  unfold inodeUpdate at h
  split_ifs at h
  · cases h
  · split at h
    · cases h
    · exact blockWrite_first (iblock_pos _) d' h

theorem dataAlloc_first (d : Disk) : Ensures (dataAlloc d) fun r => SameFirst d r.2 := by
  unfold dataAlloc
  split
  · exact .ok rfl
  split
  · exact .ok rfl
  · rename_i hwrite
    have hfirst := blockWrite_first (dblock_pos _) _ hwrite
    refine .bind (bitmapAlloc_first (by decide)) fun r hr => ?_
    cases r with
    | none => exact .ok hfirst
    | some d' => exact .ok (hfirst.trans (hr d' rfl))

theorem dataFree_first (d : Disk) (dnum : ℤ) :
    Ensures (dataFree d dnum) fun r => ∀ d' ∈ r, SameFirst d d' := by
  unfold dataFree
  exact .ite (fun _ => .ok fun _ h => by cases h) fun _ => bitmapFree_first (by decide)

theorem dataUpdate_first {block : Block} {dnum : ℤ} :
    ∀ d' ∈ dataUpdate d block dnum, SameFirst d d' := by
  intro d' h
  unfold dataUpdate at h
  split_ifs at h
  · cases h
  · exact blockWrite_first (dblock_pos _) d' h

theorem inodeDatamap_first (d : Disk) (inode : Inode) (n : ℕ) :
    Ensures (inodeDatamap d inode n) fun r => SameFirst d r.2.1 := by
  unfold inodeDatamap
  split_ifs
  · refine .bind (dataAlloc_first d) fun r hr => ?_
    exact .ite (fun _ => .ok hr) fun _ => .ok hr
  · exact .ok rfl
  · exact .error _

theorem writeLoop_first (buf : Bytes n) (fuel written offset : ℕ) (d : Disk) (inode : Inode) :
    Ensures (writeLoop buf fuel written offset d inode) fun r => SameFirst d r.2.1 := by
  induction fuel generalizing written offset d inode with
  | zero => exact .ite (fun _ => .error _) fun _ => .ok rfl
  | succ fuel ih =>
    refine .ite (fun _ => ?_) fun _ => .ok rfl
    refine .bind (inodeDatamap_first d inode _) fun r hr => ?_
    dsimp only
    split
    · exact .ok hr
    split
    · exact .ok hr
    · rename_i hupdate
      exact (ih _ _ _ _).mono fun _ hrest => (hr.trans (dataUpdate_first _ hupdate)).trans hrest

theorem fileWrite_first (d : Disk) (inode : Inode) (buf : Bytes n) (offset : ℕ) :
    Ensures (fileWrite d inode buf offset) fun r => SameFirst d r.2.1 := by
  unfold fileWrite
  refine .ite (fun _ => .ok rfl) fun _ => .ite (fun _ => .ok rfl) fun _ =>
    .ite (fun _ => .ok rfl) fun _ => .bind (writeLoop_first buf n 0 offset d inode) fun r hr => ?_
  split
  · exact .ok hr
  · refine .ite (fun _ => ?_) fun _ => .ok hr
    dsimp only
    split
    · exact .ok hr
    · rename_i hupdate
      exact .ok (hr.trans (inodeUpdate_first _ hupdate))

theorem dirAdd_first (d : Disk) (inum : ℕ) (newDirent : Dirent) (stack : Bytes 64) :
    Ensures (dirAdd d inum newDirent stack) fun r => SameFirst d r.2 := by
  unfold dirAdd
  split
  · exact .ok rfl
  · refine .bind .trivial fun _ _ => .ite (fun _ => .ok rfl) fun _ => ?_
    refine .bind .trivial fun scan _ => ?_
    cases scan with
    | failed => exact .ok rfl
    | hit offset e => exact .bind (fileWrite_first d _ _ _) fun _ hr => .ok hr
    | done => exact .bind (fileWrite_first d _ _ _) fun _ hr => .ok hr

theorem dirRemove_first (d : Disk) (inum : ℕ) (name : List UInt8) :
    Ensures (dirRemove d inum name) fun r => SameFirst d r.2 := by
  refine .ite (fun _ => .ok rfl) fun _ => .ite (fun _ => .ok rfl) fun _ => ?_
  split
  · exact .ok rfl
  · refine .bind .trivial fun scan _ => ?_
    cases scan with
    | failed => exact .ok rfl
    | hit offset e => exact .bind (fileWrite_first d _ _ _) fun _ hr => .ok hr
    | done => exact .ok rfl

theorem addDots_first (d : Disk) (inum parInum : Int32) (stack : ℕ → Bytes 64) :
    Ensures (addDots d inum parInum stack) fun r => SameFirst d r.2 := by
  refine .bind (dirAdd_first d _ _ _) fun r hr => .ite (fun _ => .ok hr) fun _ => ?_
  exact .bind (dirAdd_first _ _ _ _) fun r' hr' => .ok (hr.trans hr')

theorem rootInit_first (d : Disk) (stack : ℕ → Bytes 64) :
    Ensures (rootInit d stack) fun r => SameFirst d r.2 := by
  refine .bind (inodeAlloc_first d _) fun r hr => .ite (fun _ => .ok hr) fun _ =>
    .ite (fun _ => .ok hr) fun _ => ?_
  exact .bind (addDots_first _ _ _ _) fun r' hr' => .ok (hr.trans hr')

theorem linkDirectory_first (d : Disk) (dirInode inode : Inode) (name : NameBuf)
    (stack : ℕ → Bytes 64) :
    Ensures (linkDirectory d dirInode inode name stack) fun r => SameFirst d r.2 := by
  refine .bind (addDots_first d _ _ _) fun r hr => .ite (fun _ => .ok hr) fun _ => ?_
  dsimp only
  split
  · exact .ok hr
  · rename_i hupdate
    have hupdate := hr.trans (inodeUpdate_first _ hupdate)
    exact .bind (dirAdd_first _ _ _ _) fun r' hr' => .ok (hupdate.trans hr')

theorem fsCreate_first (d : Disk) (path : CString) (type : FileType) (name : NameBuf)
    (stack : ℕ → Bytes 64) :
    Ensures (fsCreate d path type name stack) fun r => SameFirst d r.2 := by
  refine .ite (fun _ => .ok rfl) fun _ => .bind .trivial fun parent _ => ?_
  obtain ⟨dirInode, name'⟩ := parent
  cases dirInode with
  | none => exact .ok rfl
  | some dirInode =>
    refine .bind .trivial fun _ _ => .ite (fun _ => .ok rfl) fun _ => ?_
    refine .bind (inodeAlloc_first d _) fun r hr => .ite (fun _ => .ok hr) fun _ => ?_
    refine .ite (fun _ => ?_) fun _ => .ok hr
    exact (linkDirectory_first _ _ _ _ _).mono fun _ => hr.trans

theorem freeBlocks_first (d : Disk) (addrs : List Int32) :
    Ensures (freeBlocks d addrs) fun r => SameFirst d r.2 := by
  induction addrs generalizing d with
  | nil => exact .ok rfl
  | cons addr addrs ih =>
    refine .bind (dataFree_first d _) fun r hr => ?_
    cases r with
    | none => exact .ok rfl
    | some d' => exact (ih d').mono fun _ => (hr d' rfl).trans

theorem releaseInode_first (d : Disk) (dirInode inode : Inode) :
    Ensures (releaseInode d dirInode inode) fun r => SameFirst d r.2 := by
  unfold releaseInode
  dsimp only
  split
  · exact .ok rfl
  · rename_i d₁ hupdated
    have h₁ : SameFirst d d₁ := by
      split_ifs at hupdated
      · exact inodeUpdate_first _ hupdated
      · rw [Option.some.inj hupdated]
        rfl
    refine .bind (freeBlocks_first d₁ _) fun r hr => .ite (fun _ => .ok (h₁.trans hr)) fun _ => ?_
    refine .bind (inodeFree_first _ _) fun r' hr' => ?_
    cases r' with
    | none => exact .ok (h₁.trans hr)
    | some d₂ => exact .ok ((h₁.trans hr).trans (hr' d₂ rfl))

theorem fsDelete_first (d : Disk) (path : CString) (type : FileType) (name : NameBuf) :
    Ensures (fsDelete d path type name) fun r => SameFirst d r.2 := by
  refine .ite (fun _ => .ok rfl) fun _ => .ite (fun _ => .ok rfl) fun _ =>
    .bind .trivial fun parent _ => ?_
  obtain ⟨dirInode, name'⟩ := parent
  cases dirInode with
  | none => exact .ok rfl
  | some dirInode =>
    refine .bind .trivial fun inum _ => .ite (fun _ => .ok rfl) fun _ => ?_
    dsimp only
    split
    · exact .ok rfl
    · -- the test of a directory for emptiness, or none
      refine .ite (fun _ => .bind .trivial fun _ _ => ?_) fun _ => .bind .trivial fun _ _ => ?_
      all_goals
        refine .ite (fun _ => .ok rfl) fun _ => ?_
        refine .bind (dirRemove_first d _ _) fun r hr => .ite (fun _ => .ok hr) fun _ => ?_
        exact (releaseInode_first _ _ _).mono fun _ => hr.trans

/-- The first block starts with the superblock. -/
def Disk.HasSuperblock (d : Disk) : Prop := (d.block 0).slice 0 20 = superblock

theorem SameFirst.superblock (h : SameFirst d d') (hd : d.HasSuperblock) : d'.HasSuperblock := by
  unfold Disk.HasSuperblock
  rw [h]
  exact hd

theorem superblockInit_superblock (d : Disk) (buf : Block) :
    ∀ d' ∈ superblockInit d buf, d'.HasSuperblock := by
  intro d' h
  have hwrite : superblockInit d buf = some (d.splice 0 (buf.splice 0 superblock)) :=
    blockWrite_of_lt d _ (by decide)
  rw [hwrite] at h
  rw [← Option.some.inj h]
  unfold Disk.HasSuperblock Disk.block
  rw [Bytes.slice_splice_self _ _ (by decide), Bytes.slice_splice_self _ _ (by decide)]

theorem fsInit_superblock (s : State) (buf : Block) (stack : ℕ → Bytes 64) :
    Ensures (fsInit s buf stack) fun r => r.1 = 0 → r.2.disk.HasSuperblock := by
  unfold fsInit
  split
  · exact .ok fun h => by cases h
  · rename_i hinit
    have hd := superblockInit_superblock _ _ _ hinit
    refine .bind (rootInit_first _ _) fun r hr => .ite (fun _ => .ok fun h => by cases h) fun _ => ?_
    split
    · exact .ok fun h => by cases h
    · exact .ok fun _ => hr.superblock hd

theorem Call.exec_first (d : Disk) (call : Call) :
    Ensures (call.exec d) fun r => SameFirst d r.2 := by
  cases call with
  | create path type name stack => exact fsCreate_first d path type name stack
  | delete path type name => exact fsDelete_first d path type name

/-- The working directory is a directory, or was one when it was set. -/
def State.InDirectory (s : State) : Prop := s.cwd.type = .directoryT

theorem fsChdir_directory (s : State) (path : CString) (name : NameBuf) (dest : Inode) :
    Ensures (fsChdir s path name dest) fun r => r.2.disk = s.disk ∧
      (s.InDirectory → r.2.InDirectory) := by
  refine .bind .trivial fun found _ => .ite (fun _ => .ok ⟨rfl, id⟩) fun hdir => ?_
  exact .ok ⟨rfl, fun _ => not_not.mp hdir⟩

end PicoShell.Fs
