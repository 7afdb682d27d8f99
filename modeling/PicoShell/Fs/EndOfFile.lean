import PicoShell.Fs.ReadWrite

namespace PicoShell.Fs

variable {d : Disk} {x : Inode} {F S : ℕ → Prop} {i k m n p : ℕ}

/-- The bytes in the blocks of a file. -/
def Inode.capacity (x : Inode) : ℕ := 1024 * blockCount x.len

theorem Covers.present_capacity (h : Covers x x.len) : Present x x.capacity := by
  intro k hk hlt
  unfold Inode.capacity blockCount at hlt
  exact h.range k hk ((h.present k hk).mpr (by omega))

theorem readLoop_hole (d : Disk) {fuel read : ℕ} (buf : List UInt8) (hp : p < 12288)
    (hhole : x.addr (p / 1024) = -1) (hlt : read < n) :
    readLoop d x n (fuel + 1) read p buf = .ok ((read : ℤ), buf) := by
  have hk : p / 1024 < 12 := by omega
  rw [readLoop, if_pos (by omega)]
  simp only [(uintOf_tdiv hp).1]
  rw [dif_pos hk, if_pos ((Inode.addrs_eq_neg_one x hk).mpr hhole)]

theorem readLoop_stop (d : Disk) (hx : Present x (1024 * k)) (hk : k < 12)
    (hhole : x.addr k = -1) : ∀ (fuel read p : ℕ) (buf : List UInt8), n - read ≤ fuel →
      p ≤ 1024 * k → 1024 * k < p + (n - read) →
      readLoop d x n fuel read p buf = .ok (((read + (1024 * k - p) : ℕ) : ℤ),
        buf ++ (List.range (1024 * k - p)).map fun i => d.byte x (p + i)) := by
  intro fuel
  induction fuel with
  | zero =>
    intro read p buf hf hp hend
    omega
  | succ fuel ih =>
    intro read p buf hf hp hend
    by_cases hlast : p = 1024 * k
    · have hdiv : p / 1024 = k := by omega
      rw [readLoop_hole d buf (by omega) (hdiv ▸ hhole) (by omega), hlast]
      simp
    · obtain ⟨c, hc⟩ : ∃ c : ℕ, c = min (n - read) (1024 - p % 1024) := ⟨_, rfl⟩
      rw [readLoop_round d buf (by omega) (hx (p / 1024) (by omega) (by omega)) (by omega) hc,
        ih (read + c) (p + c) _ (by omega) (by omega) (by omega), List.append_assoc,
        ← map_range_byte, show c + (1024 * k - (p + c)) = 1024 * k - p by omega,
        show read + c + (1024 * k - (p + c)) = read + (1024 * k - p) by omega]

/-- The sum of the two arguments is below the offset if it wraps. -/
theorem wrapInt_add (hp : p ≤ 12288) (hn : n < 2 ^ 31) :
    wrapInt ((p : ℤ) + n) = p + n ∨ 12288 < p + n ∧ wrapInt ((p : ℤ) + n) < p := by
  by_cases hsum : p + n < 2 ^ 31
  · exact .inl (Int.bmod_eq_of_le (by omega) (by omega))
  · refine .inr ⟨by omega, ?_⟩
    unfold wrapInt Int.bmod
    simp only
    split_ifs
    · omega
    · omega

theorem Inode.Ok.fileRead_too_long (hx : x.Ok d F) (hp : p ≤ x.len) (hn : n < 2 ^ 31)
    (hmax : 12288 < p + n) : fileRead d x p n = .ok (-1, []) := by
  have hlen := hx.len_le
  rw [fileRead, hx.size_eq, if_neg (by omega)]
  rcases wrapInt_add (hp.trans hlen) hn with hw | ⟨-, hw⟩
  · rw [hw, if_neg (by omega), if_pos (by simp; omega)]
  · rw [if_pos hw]

/-- A read that starts inside the file stops at the end of its blocks. -/
theorem Inode.Ok.fileRead_inside_max (hx : x.Ok d F) (hp : p ≤ x.len) (hn : n < 2 ^ 31)
    (hmax : p + n ≤ 12288) : fileRead d x p n = .ok (((min n (x.capacity - p) : ℕ) : ℤ),
      (List.range (min n (x.capacity - p))).map fun i => d.byte x (p + i)) := by
  have hlen := hx.len_le
  have hw := (wrapInt_add (hp.trans hlen) hn).resolve_right (by omega)
  have hpresent := hx.mapped.toCovers.present_capacity
  rw [fileRead, hx.size_eq, hw, if_neg (by omega), if_neg (by omega), if_neg (by simp; omega),
    Int.toNat_natCast]
  by_cases hin : p + n ≤ x.capacity
  · have hcap : x.capacity ≤ 12288 := by
      unfold capacity blockCount
      omega
    have hloop := readLoop_spec d hpresent hcap n n 0 p [] (by omega) (by omega) (by omega)
    rw [show min n (x.capacity - p) = n by omega]
    simpa using hloop
  · have hk : (x.len + 1023) / 1024 < 12 := by
      unfold capacity blockCount at hin
      omega
    have hhole : x.addr ((x.len + 1023) / 1024) = -1 := by
      by_contra hset
      have := (hx.mapped.present _ hk).mp hset
      omega
    have hstart : p ≤ x.capacity := by
      unfold capacity blockCount
      omega
    have hloop := readLoop_stop d hpresent hk hhole n 0 p [] (by omega) hstart
      (show x.capacity < p + (n - 0) by omega)
    rw [show min n (x.capacity - p) = x.capacity - p by omega]
    simpa [capacity] using hloop

theorem Disk.drop_take_contents (d : Disk) (x : Inode) (p n : ℕ) :
    ((d.contents x).drop p).take n =
      (List.range (min n (x.len - p))).map fun i => d.byte x (p + i) := by
  apply List.ext_getElem?
  intro q
  by_cases hq : q < min n (x.len - p)
  · rw [List.getElem?_take_of_lt (by omega), List.getElem?_drop,
      Disk.getElem?_contents _ _ (by omega), List.getElem?_map, List.getElem?_range hq]
    rfl
  · rw [List.getElem?_eq_none (by simp; omega), List.getElem?_eq_none (by simp; omega)]

/-- A read returns the bytes of the file in its range, and how many they are, if and only if the
range does not pass the end, or the file ends with a block and the range does not pass
`MAX_FILE_SIZE`. -/
theorem fileRead_stops_iff (d : Disk) (hd : WellFormed d) (i : ℕ) (hi : Allocated d i) (p : ℕ)
    (hp : p ≤ (d.inode i).len) (n : ℕ) (hn : n < 2 ^ 31) :
    fileRead d (d.inode i) p n = .ok (((min n ((d.inode i).len - p) : ℕ) : ℤ),
        ((d.contents (d.inode i)).drop p).take n) ↔
      p + n ≤ (d.inode i).len ∨ (blockSize ∣ (d.inode i).len ∧ p + n ≤ maxFileSize) := by
  have hx := hd.ok hi
  have hlen := hx.len_le
  rw [d.drop_take_contents, show maxFileSize = 12288 from rfl, show blockSize = 1024 from rfl]
  by_cases hmax : p + n ≤ 12288
  · rw [hx.fileRead_inside_max hp hn hmax]
    constructor
    · intro heq
      have hcount := (Exec.ok_inj heq).1
      unfold Inode.capacity blockCount at hcount
      omega
    · intro hend
      have hcap : min n ((d.inode i).capacity - p) = min n ((d.inode i).len - p) := by
        unfold Inode.capacity blockCount
        omega
      rw [hcap]
  · rw [hx.fileRead_too_long hp hn (by omega)]
    constructor
    · intro heq
      have hcount := (Exec.ok_inj heq).1
      omega
    · intro hend
      omega

/-- The empty file ends with a block, the last one of none. -/
theorem fileRead_stops_oneFile : fileRead oneFile (oneFile.inode 0) 0 5 = .ok (0, []) := by
  have hi := (allocated_oneFile 0).mpr rfl
  have hread := (fileRead_stops_iff oneFile wellFormed_oneFile 0 hi 0 (Nat.zero_le _) 5
    (by decide)).mpr (.inr (by rw [oneFile_len]; decide))
  rw [Disk.contents, oneFile_len] at hread
  exact hread

/-- A file of two bytes: ten bytes of it are read, and a read of all bytes that a file could have
fails. -/
theorem fileRead_passes_end : ∃ d, WellFormed d ∧ Allocated d 0 ∧ (d.inode 0).len = 2 ∧
    (∃ bytes, fileRead d (d.inode 0) 0 10 = .ok (10, bytes)) ∧
    fileRead d (d.inode 0) 0 12289 = .ok (-1, []) := by
  obtain ⟨d, x, hw, -⟩ := fileWrite_oneFile
  have halloc : ∀ i, Allocated d i ↔ Allocated oneFile i := by
    intro i
    rw [Allocated, Allocated, hw.inodeBit]
  have hd : WellFormed d := hw.wellFormed.mono fun i hi => (halloc i).mp hi
  have hi : Allocated d 0 := (halloc 0).mpr ((allocated_oneFile 0).mpr rfl)
  have hlen : (d.inode 0).len = 2 := by
    rw [hw.len, oneFile_len]
    rfl
  have hread := (hd.ok hi).fileRead_inside_max (p := 0) (n := 10) (Nat.zero_le _) (by decide)
    (by decide)
  have hcap : min 10 ((d.inode 0).capacity - 0) = 10 := by
    rw [Inode.capacity, hlen]
    rfl
  rw [hcap] at hread
  exact ⟨d, hd, hi, hlen, ⟨_, hread⟩,
    (hd.ok hi).fileRead_too_long (p := 0) (n := 12289) (Nat.zero_le _) (by decide) (by decide)⟩

end PicoShell.Fs
