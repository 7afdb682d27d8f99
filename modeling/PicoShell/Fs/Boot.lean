import PicoShell.Fs.Create

namespace PicoShell.Fs

variable {d d' : Disk} {S : ℕ → Prop} {i j p n : ℕ}

/-- No directory of `S` has an invalidated slot. -/
def NoHoles (d : Disk) (S : ℕ → Prop) : Prop :=
  ∀ i, S i → (d.inode i).type = .directoryT → ∀ e ∈ d.entries (d.inode i), e.valid = true

/-- A directory with its dot entries only, that is its own parent. -/
structure RootOnly (d : Disk) : Prop where
  wf : WellFormedOn d (· < 1)
  budget : Budget d (· < 1) 1 2
  bit : ∀ j, d.inodeBit j = decide (j = 0)
  type : (d.inode 0).type = .directoryT
  numLinks : (d.inode 0).numLinks = 0
  len : (d.inode 0).len = 128
  entries : d.entries (d.inode 0) = [literalDirent dotName 0, literalDirent dotDotName 0]

theorem RootOnly.next (h : RootOnly d) (c : List UInt8) :
    d.next 0 c = if IsDot c then some 0 else none := by
  rw [next_literal_pair h.type h.entries]
  unfold IsDot
  split_ifs <;> simp_all

theorem RootOnly.tree (h : RootOnly d) : Tree d (· < 1) 1 := by
  have hnext := h.next
  have hzero : ∀ i, i < 1 → i = 0 := fun i hi => by omega
  apply Tree.of_graph ⟨h.wf, Nat.one_pos, ?_, ?_⟩ (by decide) ?_ (h.budget.mono (by decide)) ?_ ?_
  · apply Walk.DotTree.single (fun i => Nat.lt_one_iff) h.type
    · rw [hnext, if_pos (.inl rfl)]
    · rw [hnext, if_pos (.inr rfl)]
    · exact fun c hc => (hnext c).trans (if_neg hc)
  · intro i hi _
    rw [hzero i hi, h.len]
    decide
  · intro i hi _ e he _
    rw [hzero i hi, h.entries] at he
    rcases List.mem_pair.mp he with rfl | rfl
    · exact ⟨0, rfl, Nat.one_pos⟩
    · exact ⟨0, rfl, Nat.one_pos⟩
  · intro i _
    rw [h.bit, decide_eq_true_iff]
    omega
  · intro i hi
    rw [hzero i hi, Disk.slots, h.len]
  · intro i hi _
    rw [hzero i hi, h.entries]
    apply List.pairwise_pair.mpr
    intro _ _
    rw [key_dot, key_dotDot]
    exact dotName_ne_dotDotName

theorem RootOnly.noHoles (h : RootOnly d) : NoHoles d (· < 1) := by
  intro i hi _ e he
  have hi0 : i = 0 := by omega
  rw [hi0, h.entries] at he
  rcases List.mem_pair.mp he with rfl | rfl
  · rfl
  · rfl

/-- `root_init` on a disk without inodes and taken blocks. -/
theorem rootInit_spec (stack : ℕ → Bytes 64) (hbits : ∀ i, d.inodeBit i = false)
    (hdata : ∀ b, d.dataBit b = false) : ∃ d', rootInit d stack = .ok (0, d') ∧ RootOnly d' := by
  have hblank : (freshInode .directoryT 0).Blank := ⟨rfl, fun _ => rfl⟩
  have hb : Budget d (fun _ => False) 0 0 := by
    refine ⟨fun _ h => h.elim, ?_, by simp⟩
    intro b _ hbit
    rw [hdata b] at hbit
    contradiction
  rcases inodeAlloc_cases d (freshInode .directoryT 0) with ⟨hfull, -⟩ | ⟨i, hi, -, hleast, halloc⟩
  · have := hfull 0 (by decide)
    rw [hbits 0] at this
    contradiction
  obtain rfl : i = 0 := by
    by_contra hne
    have := hleast 0 (by omega)
    rw [hbits 0] at this
    contradiction
  have hwf₁ := (wellFormedOn_empty d).takeInode hblank hi
  have hb₁ := hb.takeInode (wellFormedOn_empty d) hblank hi
  have hself := Disk.inode_takeInode d (freshInode .directoryT 0) hi hi
  rw [if_pos rfl] at hself
  have hS : (fun j : ℕ => False ∨ j = 0) = (· < 1) := by
    funext j
    simp
  rw [hS] at hwf₁ hb₁
  obtain ⟨d₂, hrun₂, htouch, hb₂, hentries, hlen⟩ := addDots_spec 0 0 stack
    hwf₁ hb₁ (by decide) (by decide) Nat.one_pos (by rw [hself]; rfl) (by rw [hself]; rfl) rfl
  refine ⟨d₂, ?_, htouch.wf, hb₂, ?_, ?_, ?_, hlen, hentries⟩
  · have h0 : (Int32.ofNat 0) = 0 := rfl
    simp only [rootInit, halloc, bind, Except.bind, h0, hrun₂]
    rfl
  · intro j
    rw [htouch.inodeBit, Disk.inodeBit_takeInode _ _ _ hi, hbits, Bool.or_false]
  · rw [htouch.type, hself]
    rfl
  · rw [htouch.numLinks, hself]
    rfl

/-- `fs_init` on a zeroed disk, whatever the uninitialised memory holds. -/
theorem fsInit_spec (cwd : Inode) (buf : Block) (stack : ℕ → Bytes 64) :
    ∃ d', fsInit ⟨.zeroed, cwd⟩ buf stack = .ok (0, ⟨d', d'.inode 0⟩) ∧ RootOnly d' := by
  have hwrite : superblockInit Disk.zeroed buf =
      some (Disk.zeroed.putBlock 0 (buf.splice 0 superblock)) := by
    rw [superblockInit]
    exact blockWrite_of_lt _ _ (by decide)
  obtain ⟨d', hroot, honly⟩ := rootInit_spec stack
    (d := Disk.zeroed.putBlock 0 (buf.splice 0 superblock)) (by
      intro i
      rw [Disk.inodeBit, Disk.block_putBlock _ _ _ (by decide), if_neg (by decide)]
      exact Disk.inodeBit_zeroed i) (by
      intro b
      rw [Disk.dataBit, Disk.block_putBlock _ _ _ (by decide), if_neg (by decide)]
      exact Disk.dataBit_zeroed b)
  have hread : inodeRead d' rootInode = some (d'.inode 0) := inodeRead_of_lt d' (by decide)
  refine ⟨d', ?_, honly⟩
  simp only [fsInit, hwrite, hroot, bind, Except.bind, hread, ne_eq, not_true_eq_false, ↓reduceIte]
  rfl

theorem Booted.rootOnly (h : Booted d) : RootOnly d := by
  obtain ⟨cwd, buf, stack, cwd', hrun⟩ := h
  obtain ⟨d', hrun', honly⟩ := fsInit_spec cwd buf stack
  rw [hrun'] at hrun
  obtain ⟨-, hs⟩ := Exec.ok_inj hrun
  rw [← (State.mk.inj hs).1]
  exact honly

theorem exists_booted : ∃ d, Booted d := by
  obtain ⟨d, hrun, -⟩ := fsInit_spec (freshInode .unusedT 0) (Bytes.zero 1024) fun _ => Bytes.zero 64
  exact ⟨d, _, _, _, _, hrun⟩

end PicoShell.Fs
