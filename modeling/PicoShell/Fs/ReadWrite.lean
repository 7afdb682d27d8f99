import PicoShell.Fs.WellFormed

namespace PicoShell.Fs

/-- All bytes of the file whose inode is `x`. -/
def Disk.contents (d : Disk) (x : Inode) : List UInt8 := (List.range x.len).map (d.byte x)

/-- `old` with the bytes from `p` on replaced by `new`. -/
def overwrite (old : List UInt8) (p : ℕ) (new : List UInt8) : List UInt8 :=
  old.take p ++ new ++ old.drop (p + new.length)

variable {d d' : Disk} {S : ℕ → Prop} {i j p n : ℕ}

@[simp] theorem Disk.length_contents (d : Disk) (x : Inode) : (d.contents x).length = x.len := by
  simp [Disk.contents]

theorem Disk.getElem?_contents (d : Disk) (x : Inode) {q : ℕ} (hq : q < x.len) :
    (d.contents x)[q]? = some (d.byte x q) := by
  simp [Disk.contents, List.getElem?_map, List.getElem?_range hq]

theorem getElem?_overwrite (old new : List UInt8) {p : ℕ} (q : ℕ) (hp : p ≤ old.length) :
    (overwrite old p new)[q]? =
      if p ≤ q ∧ q < p + new.length then new[q - p]? else old[q]? := by
  have htake : (old.take p).length = p := by simpa using hp
  unfold overwrite
  rw [List.append_assoc]
  by_cases hlo : q < p
  · rw [List.getElem?_append_left (by omega), if_neg (by omega), List.getElem?_take_of_lt hlo]
  · rw [List.getElem?_append_right (by omega), htake]
    by_cases hhi : q < p + new.length
    · rw [List.getElem?_append_left (by omega), if_pos (by omega)]
    · rw [List.getElem?_append_right (by omega), if_neg (by omega), List.getElem?_drop]
      congr 1
      omega

namespace Written

theorem contents {buf : Bytes n} (h : Written d d' S i p n buf.get) (hp : p ≤ (d.inode i).len) :
    d'.contents (d'.inode i) = overwrite (d.contents (d.inode i)) p (List.ofFn buf) := by
  have hlen := h.len
  apply List.ext_getElem?
  intro q
  rw [getElem?_overwrite _ _ _ (by simpa using hp), List.length_ofFn]
  by_cases hq : q < max (d.inode i).len (p + n)
  · rw [Disk.getElem?_contents _ _ (by omega), h.byte q hq]
    by_cases hin : p ≤ q ∧ q < p + n
    · rw [if_pos hin, if_pos hin, List.getElem?_ofFn, dif_pos (by omega),
        Bytes.get_of_lt _ (by omega)]
    · rw [if_neg hin, if_neg hin, Disk.getElem?_contents _ _ (by omega)]
  · rw [List.getElem?_eq_none (by simp [hlen]; omega), if_neg (by omega),
      List.getElem?_eq_none (by simp; omega)]

theorem contents_other {s : ℕ → UInt8} (h : Written d d' S i p n s) (hd : WellFormedOn d S)
    (hj : S j) (hji : j ≠ i) : d'.contents (d'.inode j) = d.contents (d.inode j) := by
  have hin := h.inode j (hd.lt j hj) hji
  unfold Disk.contents
  rw [hin]
  apply List.map_congr_left
  intro q hq
  have := h.byte_other hd hj hji (List.mem_range.mp hq)
  rwa [hin] at this

end Written

/-- A read inside a file of a consistent disk returns that range of its contents. -/
theorem WellFormedOn.fileRead (hd : WellFormedOn d S) (hi : S i) {m : ℕ}
    (h : p + m ≤ (d.inode i).len) :
    fileRead d (d.inode i) p m = .ok ((m : ℤ), ((d.contents (d.inode i)).drop p).take m) := by
  rw [fileRead_inside d (hd.ok hi).legible h]
  congr 2
  apply List.ext_getElem?
  intro q
  by_cases hq : q < m
  · rw [List.getElem?_take_of_lt hq, List.getElem?_drop, Disk.getElem?_contents _ _ (by omega),
      List.getElem?_map, List.getElem?_range hq]
    rfl
  · rw [List.getElem?_eq_none (by simp; omega), List.getElem?_eq_none (by simp; omega)]

/-- A write that does not fail stores all of its bytes: the file is the old one with the range
replaced, reads return it, the in-memory inode is the one on disk, and the other files stay. -/
theorem fileWrite_readback (d : Disk) (hd : WellFormed d) (i : ℕ) (hi : Allocated d i) (n : ℕ)
    (hn : n < 2 ^ 32) (buf : Bytes n) (offset : ℕ) (hoff : offset ≤ (d.inode i).len) :
    ∃ r d' inode', fileWrite d (d.inode i) buf offset = .ok (r, d', inode') ∧
      (r ≠ -1 →
        r = n ∧
        inode'.size.toInt = max (d.inode i).size.toInt (offset + n : ℕ) ∧
        d'.contents inode' = overwrite (d.contents (d.inode i)) offset (List.ofFn buf) ∧
        (∀ p m, p + m ≤ inode'.len → fileRead d' inode' p m = .ok ((m : ℤ),
          ((overwrite (d.contents (d.inode i)) offset (List.ofFn buf)).drop p).take m)) ∧
        inodeRead d' i = some inode' ∧
        ∀ j, Allocated d j → j ≠ i → d'.inode j = d.inode j ∧
          d'.contents (d'.inode j) = d.contents (d.inode j)) := by
  obtain ⟨r, d', x', hrun, hres⟩ := fileWrite_spec hd hi buf hn hoff
  refine ⟨r, d', x', hrun, fun hr => ?_⟩
  obtain ⟨rfl, -, hw, rfl⟩ := hres.resolve_left hr
  have hcontents := hw.contents hoff
  have hsize : (d.inode i).size.toInt = (d.inode i).len := (hd.ok hi).size_eq
  refine ⟨rfl, ?_, hcontents, ?_, inodeRead_of_lt d' hi.1, ?_⟩
  · rw [hw.size, hsize]
    omega
  · intro p m hpm
    rw [hw.wellFormed.fileRead hi hpm, hcontents]
  · intro j hj hji
    exact ⟨hw.inode j hj.1 hji, hw.contents_other hd hj hji⟩

def oneFile : Disk := Disk.zeroed.takeInode ⟨.fileT, 0, 0, 1, fun _ => -1⟩ 0

theorem allocated_oneFile (i : ℕ) : Allocated oneFile i ↔ i = 0 := by
  unfold Allocated oneFile
  rw [Disk.inodeBit_takeInode _ _ _ (by decide), Disk.inodeBit_zeroed]
  simp
  omega

theorem wellFormed_oneFile : WellFormed oneFile := by
  have h := (wellFormedOn_empty Disk.zeroed).takeInode (i := 0)
    (x := ⟨.fileT, 0, 0, 1, fun _ => -1⟩) ⟨rfl, fun _ => rfl⟩ (by decide)
  exact h.mono fun i hi => .inr ((allocated_oneFile i).mp hi)

theorem oneFile_len : (oneFile.inode 0).len = 0 := by
  rw [oneFile, Disk.inode_takeInode _ _ (by decide) (by decide), if_pos rfl]
  rfl

theorem fileWrite_oneFile :
    ∃ d' x', Written oneFile d' (Allocated oneFile) 0 0 2 (Bytes.ofList 2 [104, 105]).get ∧
      fileWrite oneFile (oneFile.inode 0) (Bytes.ofList 2 [104, 105]) 0 = .ok (2, d', x') := by
  have hi := (allocated_oneFile 0).mpr rfl
  rcases fileWrite_chunk_spec wellFormed_oneFile hi (Bytes.ofList 2 [104, 105]) (p := 0)
    (Nat.zero_le _) (by decide) (by decide) (by decide) with ⟨-, hfull, -⟩ | ⟨d', x', -, hw, hdone⟩
  · -- no block is taken yet
    have := hfull 0 (by decide)
    simp [oneFile] at this
  · exact ⟨d', x', hw, hdone⟩

/-- Two bytes written to the empty file are read back. -/
theorem fileWrite_readback_oneFile :
    ∃ d' inode', fileWrite oneFile (oneFile.inode 0) (Bytes.ofList 2 [104, 105]) 0 =
      .ok (2, d', inode') ∧ fileRead d' inode' 0 2 = .ok (2, [104, 105]) := by
  have hi := (allocated_oneFile 0).mpr rfl
  obtain ⟨r, d', x', hrun, h⟩ := fileWrite_readback oneFile wellFormed_oneFile 0 hi 2 (by decide)
    (Bytes.ofList 2 [104, 105]) 0 (Nat.zero_le _)
  have hr : r = 2 := by
    obtain ⟨d₁, x₁, -, hdone⟩ := fileWrite_oneFile
    rw [hrun] at hdone
    exact (Exec.ok_inj hdone).1
  obtain ⟨-, hsize, -, hread, -, -⟩ := h (by omega)
  have hlen' : x'.len = 2 := by
    have hsize₀ := (wellFormed_oneFile.ok hi).size_eq
    rw [oneFile_len] at hsize₀
    rw [Inode.len, hsize, hsize₀]
    rfl
  refine ⟨d', x', by rw [hrun, hr], ?_⟩
  have hget := hread 0 2 (by omega)
  rw [Disk.contents, oneFile_len] at hget
  exact hget

end PicoShell.Fs
