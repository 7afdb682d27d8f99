import PicoShell.Fs.ReadWrite

namespace PicoShell.Fs

variable {d d' : Disk} {x' : Inode} {S : ℕ → Prop} {i c n p : ℕ}

/-- The bitmaps, the inode table and the contents of the files are as they were. -/
structure SameFiles (d d' : Disk) : Prop where
  inodeBit : ∀ j, d'.inodeBit j = d.inodeBit j
  dataBit : ∀ b < 120, d'.dataBit b = d.dataBit b
  inode : ∀ j < 80, d'.inode j = d.inode j
  contents : ∀ j, Allocated d j → d'.contents (d.inode j) = d.contents (d.inode j)

theorem SameFiles.refl (d : Disk) : SameFiles d d :=
  ⟨fun _ => rfl, fun _ _ => rfl, fun _ _ => rfl, fun _ _ => rfl⟩

theorem Disk.contents_congr {x : Inode} (h : ∀ q < x.len, d'.byte x q = d.byte x q) :
    d'.contents x = d.contents x := by
  apply List.map_congr_left
  exact fun q hq => h q (List.mem_range.mp hq)

theorem Disk.byte_of_contents {x : Inode} (h : d'.contents x = d.contents x) {q : ℕ}
    (hq : q < x.len) : d'.byte x q = d.byte x q := by
  have hget := congrArg (fun l : List UInt8 => l[q]?) h
  simpa only [getElem?_contents _ _ hq, Option.some.injEq] using hget

/-- The bytes that a write would store over the old ones are the same. -/
def Rewrites {n : ℕ} (d : Disk) (x : Inode) (buf : Bytes n) (p : ℕ) : Prop :=
  ∀ q, p ≤ q → q < x.len → buf.get (q - p) = d.byte x q

/-- A write that got stuck behind the end of the file left everything as it was if and only if no
block was free and the file has the bytes already. -/
theorem Wrote.sameFiles_iff {buf : Bytes n} (hd : WellFormed d) (hi : Allocated d i)
    (h : Wrote d (d.inode i) d' x' (d.inode i).len p c buf.get (Foreign d (Allocated d) i))
    (hend : (d.inode i).len ≤ p + c) (hfull : d'.free.card = 0) :
    SameFiles d d' ↔ d.free.card = 0 ∧ Rewrites d (d.inode i) buf p := by
  have hlen := (hd.ok hi).len_le
  have hbits := d'.card_free_eq_zero.mp hfull
  -- the blocks of the file are those it had
  have hbyte : ∀ q < (d.inode i).len, d'.byte (d.inode i) q =
      if p ≤ q then buf.get (q - p) else d.byte (d.inode i) q := by
    intro q hq
    have hset := (hd.addrs i hi (q / 1024) (by omega)).mpr (by omega)
    have hq' := h.byte q (by omega) (by omega)
    rw [Disk.byte, h.addr _ (by omega) hset, ← Disk.byte] at hq'
    rw [hq']
    by_cases hpq : p ≤ q
    · rw [if_pos ⟨hpq, by omega⟩, if_pos hpq]
    · rw [if_neg fun hc => hpq hc.1, if_neg hpq]
  constructor
  · intro hsame
    refine ⟨d.card_free_eq_zero.mpr fun b hb => ?_, fun q hpq hq => ?_⟩
    · rw [← hsame.dataBit b hb]
      exact hbits b hb
    · rw [← Disk.byte_of_contents (hsame.contents i hi) hq, hbyte q hq, if_pos hpq]
  · rintro ⟨hnone, hold⟩
    refine ⟨h.frame.inodeBit, fun b hb => ?_, h.frame.inode, fun j hj => ?_⟩
    · rw [hbits b hb, d.card_free_eq_zero.mp hnone b hb]
    · apply Disk.contents_congr
      intro q hq
      by_cases hji : j = i
      · subst hji
        rw [hbyte q hq]
        split_ifs with hpq
        · exact hold q hpq hq
        · rfl
      · exact hd.byte_foreign h.frame.data hj hji hq

/-- Inside the file-size limits a write fails exactly when there are too few free blocks; it then
stops behind the end of the file, with no block left. -/
theorem fileWrite_blocks (hd : WellFormedOn d S) (hi : S i) (buf : Bytes n)
    (hp : p ≤ (d.inode i).len) (hmax : p + n ≤ 12288) :
    (blockCount (p + n) - blockCount (d.inode i).len ≤ d.free.card ∧
      ∃ d' x', fileWrite d (d.inode i) buf p = .ok ((n : ℤ), d', x')) ∨
    (d.free.card < blockCount (p + n) - blockCount (d.inode i).len ∧
      ∃ c d' x', Wrote d (d.inode i) d' x' (d.inode i).len p c buf.get (Foreign d S i) ∧
        (d.inode i).len ≤ p + c ∧ d'.free.card = 0 ∧
        fileWrite d (d.inode i) buf p = .ok (-1, d', x')) := by
  obtain ⟨c, d', x', hwrote, hcount, ⟨hlt, hunset, hfull, hfail⟩ | ⟨rfl, hdone⟩⟩ :=
    fileWrite_cases buf (hd.ok hi) hd.foreign_marked (hd.lt i hi) (hd.inum i hi) hp hmax
  · have hout := (hwrote.mapped.present ((p + c) / 1024) (by omega)).not.mp (not_not.mpr hunset)
    have hend : max (d.inode i).len (p + c) = p + c := by omega
    rw [hend] at hcount
    refine .inr ⟨?_, c, d', x', hwrote, by omega, hfull, hfail⟩
    unfold blockCount at hcount ⊢
    omega
  · refine .inl ⟨?_, _, _, hdone⟩
    unfold blockCount at hcount ⊢
    omega

/-- A write that fails leaves the disk as it was, if and only if it was rejected at once, or does
not fail, or there was no free block at all and the bytes up to the end of the file are the old
ones. -/
theorem fileWrite_failure_iff (d : Disk) (hd : WellFormed d) (i : ℕ) (hi : Allocated d i) (n : ℕ)
    (hn : n < 2 ^ 32) (buf : Bytes n) (offset : ℕ) :
    (∃ r d' x', fileWrite d (d.inode i) buf offset = .ok (r, d', x') ∧
      (r = -1 → SameFiles d d')) ↔
    (d.inode i).len < offset ∨ maxFileSize < offset + n ∨
      blockCount (offset + n) - blockCount (d.inode i).len ≤ d.free.card ∨
      (d.free.card = 0 ∧ Rewrites d (d.inode i) buf offset) := by
  have hok := hd.ok hi
  rw [show maxFileSize = 12288 from rfl]
  have hsame : fileWrite d (d.inode i) buf offset = .ok (-1, d, d.inode i) →
      ∃ r d' x', fileWrite d (d.inode i) buf offset = .ok (r, d', x') ∧ (r = -1 → SameFiles d d') :=
    fun hrun => ⟨-1, d, d.inode i, hrun, fun _ => .refl d⟩
  by_cases hoff : (d.inode i).len < offset
  · refine iff_of_true (hsame ?_) (.inl hoff)
    rw [fileWrite, hok.uintOf_size, if_pos hoff]
  by_cases hmax : 12288 < offset + n
  · exact iff_of_true (hsame (fileWrite_too_long buf hn hok (by omega) hmax)) (.inr (.inl hmax))
  rcases fileWrite_blocks hd hi buf (Nat.le_of_not_lt hoff) (Nat.le_of_not_lt hmax) with
    ⟨hroom, d', x', hdone⟩ | ⟨hfew, c, d', x', hwrote, hend, hfull, hfail⟩
  · refine iff_of_true ⟨n, d', x', hdone, fun hr => ?_⟩ (.inr (.inr (.inl hroom)))
    omega
  · have hiff := hwrote.sameFiles_iff hd hi hend hfull
    constructor
    · rintro ⟨r, d₁, x₁, hrun, hr⟩
      rw [hfail] at hrun
      obtain ⟨rfl, hrest⟩ := Exec.ok_inj hrun
      obtain ⟨rfl, -⟩ := Prod.mk.inj hrest
      exact .inr (.inr (.inr (hiff.mp (hr rfl))))
    · intro hcond
      refine ⟨-1, d', x', hfail, fun _ => hiff.mpr ?_⟩
      have := (hcond.resolve_left hoff).resolve_left hmax
      exact this.resolve_left (Nat.not_le.mpr hfew)

/-- A write that passes `MAX_FILE_SIZE`. -/
theorem fileWrite_failure_too_long : ∃ r d' x',
    fileWrite oneFile (oneFile.inode 0) (Bytes.zero 12289) 0 = .ok (r, d', x') ∧
      (r = -1 → SameFiles oneFile d') :=
  (fileWrite_failure_iff oneFile wellFormed_oneFile 0 ((allocated_oneFile 0).mpr rfl) 12289
    (by decide) (Bytes.zero 12289) 0).mpr (.inr (.inl (by decide)))

/-- Two blocks are written to an empty file while one is free: it is taken, and no inode refers to
it. -/
theorem fileWrite_leaks : ∃ d d' x', WellFormed d ∧ Allocated d 0 ∧ (d.inode 0).len = 0 ∧
    fileWrite d (d.inode 0) (Bytes.zero 2048) 0 = .ok (-1, d', x') ∧
    d.dataBit 119 = false ∧ d'.dataBit 119 = true ∧
    ∀ j, Allocated d' j → ∀ k < 12, (d'.inode j).addr k ≠ 119 := by
  obtain ⟨hinode, -, hbit, hbits⟩ := oneFile.foldl_setDataBit (List.range 119) fun b hb => by
    have := List.mem_range.mp hb
    omega
  generalize (List.range 119).foldl Disk.setDataBit oneFile = d at hinode hbit hbits
  have halloc : ∀ i, Allocated d i ↔ Allocated oneFile i := by
    intro i
    rw [Allocated, Allocated, hbit]
  have hi : Allocated d 0 := (halloc 0).mpr ((allocated_oneFile 0).mpr rfl)
  have hlen : (d.inode 0).len = 0 := by
    rw [hinode 0 (by decide)]
    exact oneFile_len
  have hd : WellFormed d := by
    apply (wellFormed_oneFile.of_same (fun j hj => _) fun j hj k hk hset => _).mono
    · exact fun i hi => (halloc i).mp hi
    · intro j hj
      rw [hinode j hj.1]
      exact ⟨rfl, rfl, rfl⟩
    · intro j hj k hk hset
      rw [hbits, wellFormed_oneFile.marked j hj k hk hset, Bool.or_true]
  have hfree : d.dataBit 119 = false := by
    rw [hbits]
    simp [oneFile]
  have hone : d.free = {119} := by
    ext b
    rw [d.mem_free, hbits]
    simp [oneFile]
    omega
  rcases fileWrite_blocks hd hi (Bytes.zero 2048) (p := 0) (Nat.zero_le _) (by decide) with
    ⟨hroom, -⟩ | ⟨-, c, d', x', hwrote, -, hfull, hfail⟩
  · rw [hone, hlen] at hroom
    exact absurd hroom (by decide)
  · refine ⟨d, d', x', hd, hi, hlen, hfail, hfree, d'.card_free_eq_zero.mp hfull 119 (by decide), ?_⟩
    intro j hj k hk haddr
    have hj' : Allocated d j := ⟨hj.1, hwrote.frame.inodeBit j ▸ hj.2⟩
    rw [hwrote.frame.inode j hj.1] at haddr
    have := hd.marked j hj' k hk (by omega)
    rw [haddr] at this
    exact absurd (hfree.symm.trans this) Bool.false_ne_true

end PicoShell.Fs
