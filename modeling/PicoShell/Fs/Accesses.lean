import PicoShell.Fs.EndOfFile

namespace PicoShell.Fs

/-- What a round of a loop uses: a direct pointer, and a chunk of a block. -/
inductive Access
  | pointer (addr : ℤ)
  | chunk (start size : ℤ)

/-- The index is one of the array, and the chunk lies inside its block. -/
def Access.InBounds : Access → Prop
  | pointer addr => 0 ≤ addr ∧ addr < nDirect
  | chunk start size => 0 ≤ start ∧ start < blockSize ∧ 0 ≤ size ∧ start + size ≤ blockSize

theorem Access.inBounds_nil : ∀ a ∈ ([] : List Access), a.InBounds :=
  fun _ ha => absurd ha List.not_mem_nil

def readAccesses (disk : Disk) (inode : Inode) (byteCount : ℤ) : ℕ → ℤ → ℤ → List Access
  | 0, _, _ => []
  | fuel + 1, read, offset =>
    if read < byteCount then
      let addr := uintOf (offset.tdiv blockSize)
      .pointer addr ::
        if h : addr < 12 then
          if inode.addrs ⟨addr, h⟩ = -1 then []
          else
            match dataRead disk (inode.addrs ⟨addr, h⟩).toInt with
            | none => []
            | some _ =>
              let start := offset.tmod blockSize
              let chunkSize := min (byteCount - read) (blockSize - start)
              .chunk start chunkSize ::
                readAccesses disk inode byteCount fuel (read + chunkSize) (offset + chunkSize)
        else []
    else []

def fileReadAccesses (disk : Disk) (inode : Inode) (offset byteCount : ℤ) : List Access :=
  if offset > inode.size.toInt then []
  else if wrapInt (offset + byteCount) < offset then []
  else if wrapInt (offset + byteCount) > maxFileSize then []
  else readAccesses disk inode byteCount byteCount.toNat 0 offset

def writeAccesses {n : ℕ} (buf : Bytes n) : ℕ → ℕ → ℕ → Disk → Inode → List Access
  | 0, _, _, _, _ => []
  | fuel + 1, written, offset, disk, inode =>
    if written < n then
      .pointer (offset / blockSize : ℕ) ::
        match inodeDatamap disk inode (offset / blockSize) with
        | .error _ => []
        | .ok (dnum, disk, inode) =>
          match dataRead disk dnum with
          | none => []
          | some block =>
            let chunkSize := min (n - written) (blockSize - offset % blockSize)
            let block := block.splice (offset % blockSize) (buf.slice written chunkSize)
            .chunk (offset % blockSize : ℕ) chunkSize ::
              match dataUpdate disk block dnum with
              | none => []
              | some disk =>
                writeAccesses buf fuel (written + chunkSize) (offset + chunkSize) disk inode
    else []

def fileWriteAccesses {n : ℕ} (disk : Disk) (inode : Inode) (buf : Bytes n) (offset : ℕ) :
    List Access :=
  if offset > uintOf inode.size.toInt then []
  else if (offset + n) % 2 ^ 32 < offset then []
  else if (offset + n) % 2 ^ 32 > maxFileSize then []
  else writeAccesses buf n 0 offset disk inode

/-- The call returns, and every index it uses is in range. -/
def ReadsInBounds (d : Disk) (x : Inode) (offset byteCount : ℤ) : Prop :=
  (∃ r, fileRead d x offset byteCount = .ok r) ∧
    ∀ a ∈ fileReadAccesses d x offset byteCount, a.InBounds

def WritesInBounds {n : ℕ} (d : Disk) (x : Inode) (buf : Bytes n) (offset : ℕ) : Prop :=
  (∃ r, fileWrite d x buf offset = .ok r) ∧ ∀ a ∈ fileWriteAccesses d x buf offset, a.InBounds

/-- An inode with direct pointers just for the blocks below its size, all of them to data blocks. -/
structure Inode.Sound (x : Inode) : Prop where
  nonneg : 0 ≤ x.size.toInt
  le_max : x.size.toInt ≤ maxFileSize
  covers : Covers x x.len

variable {x : Inode} {p n : ℕ} {offset byteCount : ℤ}

/-- From an offset of the file on, the rounds stay below `MAX_FILE_SIZE`. -/
theorem readLoop_inBounds (d : Disk) (x : Inode) (n : ℕ) : ∀ (fuel read p : ℕ) (buf : List UInt8),
    n - read ≤ fuel → p + (n - read) ≤ 12288 →
      (∃ r, readLoop d x n fuel read p buf = .ok r) ∧
        ∀ a ∈ readAccesses d x n fuel read p, a.InBounds := by
  intro fuel
  induction fuel with
  | zero =>
    intro read p buf hf _
    refine ⟨⟨((n : ℤ), buf), ?_⟩, Access.inBounds_nil⟩
    rw [readLoop, if_neg (by omega)]
  | succ fuel ih =>
    intro read p buf hf hp
    rw [readLoop, readAccesses]
    by_cases hlt : (read : ℤ) < n
    · have hk : p / 1024 < 12 := by omega
      obtain ⟨huint, hmod⟩ := uintOf_tdiv (p := p) (by omega)
      have hpointer : (Access.pointer (p / 1024 : ℕ)).InBounds := by
        simp only [Access.InBounds, nDirect]
        omega
      rw [if_pos hlt, if_pos hlt]
      simp only [huint, hmod, dif_pos hk]
      by_cases hunset : x.addrs ⟨p / 1024, hk⟩ = -1
      · rw [if_pos hunset, if_pos hunset]
        exact ⟨⟨_, rfl⟩, List.forall_mem_singleton.mpr hpointer⟩
      · rw [if_neg hunset, if_neg hunset]
        cases hread : dataRead d (x.addrs ⟨p / 1024, hk⟩).toInt with
        | none => exact ⟨⟨_, rfl⟩, List.forall_mem_singleton.mpr hpointer⟩
        | some block =>
          obtain ⟨c, hc⟩ : ∃ c : ℕ, c = min (n - read) (1024 - p % 1024) := ⟨_, rfl⟩
          have hchunk : min ((n : ℤ) - read) (blockSize - ((p % 1024 : ℕ) : ℤ)) = c := by
            simp only [blockSize]
            omega
          -- A chunk ends where its block or the range does.
          have hin : (Access.chunk ((p % 1024 : ℕ) : ℤ) c).InBounds := by
            simp only [Access.InBounds, blockSize]
            omega
          simp only [hchunk]
          rw [if_pos ⟨hin.1, hin.2.2.2⟩, ← Nat.cast_add, ← Nat.cast_add]
          obtain ⟨hrest, hall⟩ := ih (read + c) (p + c) (buf ++ block.window (p % 1024) c) (by omega)
            (by omega)
          exact ⟨hrest, List.forall_mem_cons.mpr ⟨hpointer, List.forall_mem_cons.mpr ⟨hin, hall⟩⟩⟩
    · rw [if_neg hlt, if_neg hlt]
      exact ⟨⟨_, rfl⟩, Access.inBounds_nil⟩

theorem ReadsInBounds.of_rejected (d : Disk) (h : x.size.toInt < offset ∨
    wrapInt (offset + byteCount) < offset ∨ maxFileSize < wrapInt (offset + byteCount)) :
    ReadsInBounds d x offset byteCount := by
  unfold ReadsInBounds fileRead fileReadAccesses
  by_cases hsize : offset > x.size.toInt
  · rw [if_pos hsize, if_pos hsize]
    exact ⟨⟨_, rfl⟩, Access.inBounds_nil⟩
  rw [if_neg hsize, if_neg hsize]
  by_cases hwrap : wrapInt (offset + byteCount) < offset
  · rw [if_pos hwrap, if_pos hwrap]
    exact ⟨⟨_, rfl⟩, Access.inBounds_nil⟩
  have hmax : wrapInt (offset + byteCount) > maxFileSize :=
    (h.resolve_left hsize).resolve_left hwrap
  rw [if_neg hwrap, if_neg hwrap, if_pos hmax, if_pos hmax]
  exact ⟨⟨_, rfl⟩, Access.inBounds_nil⟩

/-- A call that is not rejected does what the loop does. -/
theorem readsInBounds_iff_loop (d : Disk) (hsize : offset ≤ x.size.toInt)
    (hwrap : offset ≤ wrapInt (offset + byteCount))
    (hmax : wrapInt (offset + byteCount) ≤ maxFileSize) : ReadsInBounds d x offset byteCount ↔
      (∃ r, readLoop d x byteCount byteCount.toNat 0 offset [] = .ok r) ∧
        ∀ a ∈ readAccesses d x byteCount byteCount.toNat 0 offset, a.InBounds := by
  unfold ReadsInBounds fileRead fileReadAccesses
  rw [if_neg (not_lt.mpr hsize), if_neg (not_lt.mpr hwrap), if_neg (not_lt.mpr hmax),
    if_neg (not_lt.mpr hsize), if_neg (not_lt.mpr hwrap), if_neg (not_lt.mpr hmax)]

theorem ReadsInBounds.of_nonpos (d : Disk) (x : Inode) (offset : ℤ) (h : byteCount ≤ 0) :
    ReadsInBounds d x offset byteCount := by
  by_cases hreject : x.size.toInt < offset ∨ wrapInt (offset + byteCount) < offset ∨
      maxFileSize < wrapInt (offset + byteCount)
  · exact .of_rejected d hreject
  · simp only [not_or, not_lt] at hreject
    obtain ⟨hsize, hwrap, hmax⟩ := hreject
    rw [readsInBounds_iff_loop d hsize hwrap hmax, Int.toNat_of_nonpos h, readLoop,
      if_neg (not_lt.mpr h)]
    exact ⟨⟨_, rfl⟩, Access.inBounds_nil⟩

theorem ReadsInBounds.of_nonneg (d : Disk) (hx : x.Sound) (ho : 0 ≤ offset)
    (hn : byteCount < 2 ^ 31) : ReadsInBounds d x offset byteCount := by
  by_cases hpos : byteCount ≤ 0
  · exact .of_nonpos d x offset hpos
  lift offset to ℕ using ho
  lift byteCount to ℕ using by omega
  have hle := hx.le_max
  simp only [maxFileSize, nDirect, blockSize] at hle
  by_cases hsize : x.size.toInt < offset
  · exact .of_rejected d (.inl hsize)
  rcases wrapInt_add (p := offset) (n := byteCount) (by omega) (by omega) with hw | ⟨-, hw⟩
  · by_cases hmax : 12288 < offset + byteCount
    · apply ReadsInBounds.of_rejected d (.inr (.inr _))
      rw [hw]
      simp only [maxFileSize, nDirect, blockSize]
      omega
    · rw [readsInBounds_iff_loop d (by omega) (by omega) (by rw [hw]; simp; omega), Int.toNat_natCast]
      exact readLoop_inBounds d x byteCount byteCount 0 offset [] (by omega) (by omega)
  · exact .of_rejected d (.inr (.inl hw))

/-- C division rounds towards zero, and a negative quotient is a large index. -/
theorem uintOf_tdiv_neg (hneg : offset < 0) (hlo : -2 ^ 31 ≤ offset) :
    (-1024 < offset ∧ uintOf (offset.tdiv blockSize) = 0 ∧ offset.tmod blockSize = offset) ∨
    (offset ≤ -1024 ∧ 12 ≤ uintOf (offset.tdiv blockSize)) := by
  have hdiv : offset.tdiv 1024 = -((-offset) / 1024) := by
    rw [← Int.tdiv_eq_ediv_of_nonneg (by omega), Int.neg_tdiv, neg_neg]
  have hmod : offset.tmod 1024 = -((-offset) % 1024) := by
    rw [← Int.tmod_eq_emod_of_nonneg (by omega), Int.neg_tmod, neg_neg]
  simp only [blockSize, Nat.cast_ofNat]
  rw [hdiv, hmod]
  unfold uintOf
  omega

/-- In front of the file the first round uses a negative byte index of the first block, or a large
index of the pointers. -/
theorem readLoop_negative (d : Disk) (hx : x.Sound) (hneg : offset < 0) (hlo : -2 ^ 31 ≤ offset)
    (hn : 0 < byteCount) :
    ((∃ r, readLoop d x byteCount byteCount.toNat 0 offset [] = .ok r) ∧
        ∀ a ∈ readAccesses d x byteCount byteCount.toNat 0 offset, a.InBounds) ↔
      -blockSize < offset ∧ x.len = 0 := by
  obtain ⟨fuel, hfuel⟩ : ∃ fuel, byteCount.toNat = fuel + 1 := ⟨byteCount.toNat - 1, by omega⟩
  rw [hfuel, readLoop, readAccesses, if_pos hn, if_pos hn]
  rcases uintOf_tdiv_neg hneg hlo with ⟨hblock, haddr, hmod⟩ | ⟨hblock, haddr⟩
  · have hset : x.addrs ⟨0, by decide⟩ = -1 ↔ x.len = 0 := by
      have := hx.covers.present 0 (by decide)
      rw [Inode.addrs_eq_neg_one x (by decide)]
      omega
    simp only [haddr, hmod, Nat.ofNat_pos, ↓reduceDIte]
    by_cases hempty : x.len = 0
    · rw [if_pos (hset.mpr hempty), if_pos (hset.mpr hempty)]
      refine iff_of_true ⟨⟨_, rfl⟩, List.forall_mem_singleton.mpr ?_⟩ ⟨hblock, hempty⟩
      simp [Access.InBounds]
    · have hne := fun h => hempty (hset.mp h)
      have hrange := hx.covers.range 0 (by decide)
      rw [if_neg hne, if_neg hne]
      refine iff_of_false ?_ fun h => hempty h.2
      rintro ⟨-, hall⟩
      rw [ne_eq, ← Inode.addrs_eq_neg_one x (by decide), Inode.addr_of_lt x (by decide)] at hrange
      obtain ⟨b, hb⟩ : ∃ b : ℕ, (x.addrs ⟨0, by decide⟩).toInt = b :=
        ⟨(x.addrs ⟨0, by decide⟩).toInt.toNat, by have := hrange hne; omega⟩
      have := hrange hne
      rw [hb, dataRead_of_lt d (by omega)] at hall
      have hin := hall _ (List.mem_cons_of_mem _ List.mem_cons_self)
      exact absurd hin.1 (by omega)
  · refine iff_of_false ?_ fun h => absurd h.1 (by simp; omega)
    rintro ⟨-, hall⟩
    have hin := (hall _ List.mem_cons_self).2
    simp only [nDirect] at hin
    omega

/-- `file_read` stays in bounds unless it starts in front of the file: a check for that is missing. -/
theorem readsInBounds_iff (d : Disk) (hx : x.Sound) (offset byteCount : Int32) :
    ReadsInBounds d x offset.toInt byteCount.toInt ↔
      0 ≤ offset.toInt ∨ byteCount.toInt ≤ 0 ∨ maxFileSize < offset.toInt + byteCount.toInt ∨
        (-blockSize < offset.toInt ∧ x.len = 0) := by
  have hn : byteCount.toInt < 2 ^ 31 := Int32.toInt_lt byteCount
  have hlo : -2 ^ 31 ≤ offset.toInt := Int32.le_toInt offset
  by_cases ho : 0 ≤ offset.toInt
  · exact iff_of_true (.of_nonneg d hx ho hn) (.inl ho)
  by_cases hpos : byteCount.toInt ≤ 0
  · exact iff_of_true (.of_nonpos d x _ hpos) (.inr (.inl hpos))
  have hneg := not_le.mp ho
  have hpos := not_le.mp hpos
  have hw : wrapInt (offset.toInt + byteCount.toInt) = offset.toInt + byteCount.toInt := by
    unfold wrapInt
    exact Int.bmod_eq_of_le (by omega) (by omega)
  by_cases hmax : maxFileSize < offset.toInt + byteCount.toInt
  · refine iff_of_true (.of_rejected d (.inr (.inr ?_))) (.inr (.inr (.inl hmax)))
    rwa [hw]
  · have hnonneg := hx.nonneg
    rw [readsInBounds_iff_loop d (by omega) (by omega) (by rw [hw]; exact not_lt.mp hmax),
      readLoop_negative d hx hneg hlo hpos]
    simp only [ho, not_le.mpr hpos, hmax, false_or]

theorem inodeDatamap_ok (d : Disk) (x : Inode) {k : ℕ} (hk : k < 12) :
    ∃ res, inodeDatamap d x k = .ok res := by
  rw [inodeDatamap, dif_pos hk]
  split_ifs
  · rcases dataAlloc_cases d with ⟨-, halloc⟩ | ⟨b, -, -, -, halloc⟩
    · rw [halloc]
      exact ⟨_, rfl⟩
    · rw [halloc]
      have hne : (b : ℤ) ≠ -1 := by omega
      simp only [bind, Except.bind, if_neg hne]
      exact ⟨_, rfl⟩
  · exact ⟨_, rfl⟩

theorem writeLoop_inBounds {n : ℕ} (buf : Bytes n) : ∀ (fuel written p : ℕ) (d : Disk) (x : Inode),
    n - written ≤ fuel → p + (n - written) ≤ 12288 →
      (∃ r, writeLoop buf fuel written p d x = .ok r) ∧
        ∀ a ∈ writeAccesses buf fuel written p d x, a.InBounds := by
  intro fuel
  induction fuel with
  | zero =>
    intro written p d x hf _
    refine ⟨⟨(some p, d, x), ?_⟩, Access.inBounds_nil⟩
    rw [writeLoop, if_neg (by omega)]
  | succ fuel ih =>
    intro written p d x hf hp
    rw [writeLoop, writeAccesses]
    by_cases hlt : written < n
    · have hk : p / 1024 < 12 := by omega
      have hpointer : (Access.pointer (p / blockSize : ℕ)).InBounds := by
        simp only [Access.InBounds, nDirect, blockSize]
        omega
      have hin : (Access.chunk (p % blockSize : ℕ)
          (min (n - written) (blockSize - p % blockSize) : ℕ)).InBounds := by
        simp only [Access.InBounds, blockSize]
        omega
      rw [if_pos hlt, if_pos hlt]
      obtain ⟨⟨dnum, d₁, x₁⟩, hmap⟩ := inodeDatamap_ok d x (show p / blockSize < 12 from hk)
      simp only [hmap, bind, Except.bind]
      cases dataRead d₁ dnum with
      | none => exact ⟨⟨_, rfl⟩, List.forall_mem_singleton.mpr hpointer⟩
      | some block =>
        simp only
        cases dataUpdate d₁ (block.splice (p % blockSize) (buf.slice written
            (min (n - written) (blockSize - p % blockSize)))) dnum with
        | none =>
          exact ⟨⟨_, rfl⟩, List.forall_mem_cons.mpr ⟨hpointer, List.forall_mem_singleton.mpr hin⟩⟩
        | some d₂ =>
          obtain ⟨hrest, hall⟩ := ih (written + min (n - written) (blockSize - p % blockSize))
            (p + min (n - written) (blockSize - p % blockSize)) d₂ x₁
            (by simp only [blockSize]; omega) (by simp only [blockSize]; omega)
          exact ⟨hrest, List.forall_mem_cons.mpr ⟨hpointer, List.forall_mem_cons.mpr ⟨hin, hall⟩⟩⟩
    · rw [if_neg hlt, if_neg hlt]
      exact ⟨⟨_, rfl⟩, Access.inBounds_nil⟩

/-- The checks of `file_write` leave no offset from which the loop could pass `MAX_FILE_SIZE`. -/
theorem writesInBounds {n : ℕ} (d : Disk) (hx : x.Sound) (buf : Bytes n) (hn : n < 2 ^ 32)
    (offset : UInt32) : WritesInBounds d x buf offset.toNat := by
  have hnonneg := hx.nonneg
  have hle := hx.le_max
  simp only [maxFileSize, nDirect, blockSize] at hle
  have hsize : uintOf x.size.toInt ≤ 12288 := by
    unfold uintOf
    omega
  unfold WritesInBounds fileWrite fileWriteAccesses
  by_cases hstart : offset.toNat > uintOf x.size.toInt
  · rw [if_pos hstart, if_pos hstart]
    exact ⟨⟨_, rfl⟩, Access.inBounds_nil⟩
  rw [if_neg hstart, if_neg hstart]
  by_cases hwrap : (offset.toNat + n) % 2 ^ 32 < offset.toNat
  · rw [if_pos hwrap, if_pos hwrap]
    exact ⟨⟨_, rfl⟩, Access.inBounds_nil⟩
  rw [if_neg hwrap, if_neg hwrap]
  by_cases hmax : (offset.toNat + n) % 2 ^ 32 > maxFileSize
  · rw [if_pos hmax, if_pos hmax]
    exact ⟨⟨_, rfl⟩, Access.inBounds_nil⟩
  rw [if_neg hmax, if_neg hmax]
  -- the sum did not wrap, as the offset is one of the file
  have hsum : offset.toNat + n ≤ 12288 := by
    simp only [maxFileSize, nDirect, blockSize] at hmax
    omega
  obtain ⟨⟨res, hrun⟩, hall⟩ := writeLoop_inBounds buf n 0 offset.toNat d x (by omega) (by omega)
  refine ⟨?_, hall⟩
  obtain ⟨_ | stop, d₁, x₁⟩ := res
  · rw [hrun]
    exact ⟨_, rfl⟩
  · simp only [hrun, bind, Except.bind]
    split_ifs
    · cases inodeUpdate d₁ { x₁ with size := Int32.ofNat stop } x₁.inum.toInt with
      | none => exact ⟨_, rfl⟩
      | some d₂ => exact ⟨_, rfl⟩
    · exact ⟨_, rfl⟩

/-- Calls of both functions stay in bounds if and only if the read does not start in front of the
file, or reads nothing, or is rejected for its length, or finds no block. -/
theorem accesses_inBounds_iff {x : Inode} (hx : x.Sound) (d : Disk) (offset byteCount : Int32)
    (offset' byteCount' : UInt32) (buf : Bytes byteCount'.toNat) :
    (ReadsInBounds d x offset.toInt byteCount.toInt ∧ WritesInBounds d x buf offset'.toNat) ↔
      0 ≤ offset.toInt ∨ byteCount.toInt ≤ 0 ∨ maxFileSize < offset.toInt + byteCount.toInt ∨
        (-blockSize < offset.toInt ∧ x.len = 0) := by
  rw [readsInBounds_iff d hx, and_iff_left (writesInBounds d hx buf byteCount'.toNat_lt offset')]

def oneByte : Inode :=
  ⟨.fileT, 0, 1, 1, fun
    | 0 => 0
    | _ => -1⟩

theorem oneByte_sound : oneByte.Sound := by
  have haddr : ∀ k < 12, oneByte.addr k = if k = 0 then 0 else -1 := by decide
  have hlen : oneByte.len = 1 := rfl
  refine ⟨by decide, by decide, ?_, ?_⟩
  · intro k hk
    rw [haddr k hk, hlen]
    split_ifs
    · omega
    · omega
  · intro k hk hset
    rw [haddr k hk] at hset ⊢
    split_ifs at hset ⊢
    · decide
    · contradiction

theorem accesses_inBounds_oneByte :
    ReadsInBounds .zeroed oneByte (Int32.toInt 0) (Int32.toInt 5) ∧
      WritesInBounds (n := UInt32.toNat 2) .zeroed oneByte (Bytes.zero _) (UInt32.toNat 1) :=
  (accesses_inBounds_iff oneByte_sound .zeroed 0 5 1 2 (Bytes.zero _)).mpr (.inl (by decide))

/-- One byte is read at offset -1 from index -1 of the block, and at offset -1024 the index of the
pointer is `2 ^ 32 - 1`. -/
theorem accesses_not_inBounds : oneByte.Sound ∧
    fileRead .zeroed oneByte (-1) 1 = .error .index ∧
      fileReadAccesses .zeroed oneByte (-1) 1 = [.pointer 0, .chunk (-1) 1] ∧
      fileReadAccesses .zeroed oneByte (-1024) 1 = [.pointer (2 ^ 32 - 1)] :=
  ⟨oneByte_sound, rfl, rfl, rfl⟩

end PicoShell.Fs
