import PicoShell.Fs.FileWrite
import PicoShell.Lib.Lockstep

/-! Two disks that differ in free data blocks only: no client that allocates inodes, reads
and writes can tell them apart, because a block is zeroed before it is marked. -/

namespace PicoShell.Fs

variable {d d' e : Disk} {x : Inode} {i b k n : ℕ}

/-- The disks have the same superblock, bitmaps and inode table, which are the first eight blocks, and
the same contents in every data block that is marked. -/
structure Agree (d d' : Disk) : Prop where
  front : ∀ p < 8192, d.get p = d'.get p
  data : ∀ k < 120, d.dataBit k = true → d.data k = d'.data k

namespace Agree

theorem block (h : Agree d d') (hk : k < 8) : d.block k = d'.block k := by
  funext i
  exact h.front _ (by omega)

theorem inode (h : Agree d d') (hi : i < 80) : d.inode i = d'.inode i := by
  apply congrArg Inode.decode
  funext p
  exact h.front _ (by omega)

theorem inodeBit (h : Agree d d') (i : ℕ) : d.inodeBit i = d'.inodeBit i := by
  rw [Disk.inodeBit, h.block (by decide), Disk.inodeBit]

theorem dataBit (h : Agree d d') (k : ℕ) : d.dataBit k = d'.dataBit k := by
  rw [Disk.dataBit, h.block (by decide), Disk.dataBit]

theorem front_splice (h : Agree d d') {m : ℕ} (src : Bytes m) (off : ℕ) :
    ∀ p < 8192, (d.splice off src).get p = (d'.splice off src).get p := by
  intro p hp
  rw [Bytes.get_splice d src (by omega), Bytes.get_splice d' src (by omega), h.front p hp]

theorem putInode (h : Agree d d') (x : Inode) (hi : i < 80) :
    Agree (d.putInode i x) (d'.putInode i x) := by
  refine ⟨h.front_splice x.encode _, fun k hk hbit => ?_⟩
  rw [Disk.dataBit_putInode _ _ _ hi] at hbit
  rw [Disk.data_putInode _ _ _ hi, Disk.data_putInode _ _ _ hi]
  exact h.data k hk hbit

theorem setInodeBit (h : Agree d d') (i : ℕ) : Agree (d.setInodeBit i) (d'.setInodeBit i) := by
  refine ⟨?_, fun k hk hbit => ?_⟩
  · unfold Disk.setInodeBit
    rw [← h.block (k := 1) (by decide)]
    exact h.front_splice _ _
  · rw [Disk.dataBit_setInodeBit] at hbit
    rw [Disk.data_setInodeBit, Disk.data_setInodeBit]
    exact h.data k hk hbit

theorem takeInode (h : Agree d d') (x : Inode) (hi : i < 80) :
    Agree (d.takeInode x i) (d'.takeInode x i) := (h.putInode _ hi).setInodeBit i

theorem putData (h : Agree d d') (c : Block) (hb : b < 120) :
    Agree (d.putData b c) (d'.putData b c) := by
  refine ⟨h.front_splice c _, fun k hk hbit => ?_⟩
  rw [Disk.dataBit_putData _ _ _ hb] at hbit
  rw [Disk.data_putData _ _ _ hb, Disk.data_putData _ _ _ hb]
  split_ifs
  · rfl
  · exact h.data k hk hbit

/-- A block is zeroed on both disks before it is marked on them. -/
theorem takeData (h : Agree d d') (hb : b < 120) : Agree (d.takeData b) (d'.takeData b) := by
  have hput := h.putData (Bytes.zero 1024) hb
  refine ⟨?_, fun k hk hbit => ?_⟩
  · unfold Disk.takeData Disk.setDataBit
    rw [← hput.block (k := 2) (by decide)]
    exact hput.front_splice _ _
  · rw [Disk.dataBit_takeData _ _ hb, Bool.or_eq_true, decide_eq_true_eq] at hbit
    rw [Disk.data_takeData _ _ hb, Disk.data_takeData _ _ hb]
    split_ifs with hkb
    · rfl
    · exact h.data k hk (hbit.resolve_left hkb)

end Agree

/-- Every direct pointer is unset or leads to a marked block. -/
def Inode.Refers (d : Disk) (x : Inode) : Prop :=
  ∀ k < 12, x.addr k = -1 ∨ ∃ b : ℕ, b < 120 ∧ x.addr k = b ∧ d.dataBit b = true

theorem Inode.Refers.mono (h : x.Refers d) (hbits : ∀ b < 120, d.dataBit b = true → e.dataBit b = true) :
    x.Refers e := by
  intro k hk
  rcases h k hk with hunset | ⟨b, hb, haddr, hbit⟩
  · exact .inl hunset
  · exact .inr ⟨b, hb, haddr, hbits b hb hbit⟩

theorem Inode.refers_of_unset (d : Disk) (hx : ∀ k, x.addrs k = -1) : x.Refers d := by
  intro k hk
  left
  rw [← Inode.addrs_eq_neg_one x hk]
  exact hx _

theorem Inode.Refers.range (h : x.Refers d) (hk : k < 12) (hset : x.addr k ≠ -1) :
    0 ≤ x.addr k ∧ x.addr k < 120 := by
  rcases h k hk with hunset | ⟨b, hb, haddr, -⟩
  · exact absurd hunset hset
  · omega

theorem Inode.Refers.setAddr (h : x.Refers d) (hk : k < 12) (hb : b < 120)
    (hbit : d.dataBit b = true) : (x.setAddr k b).Refers d := by
  intro l hl
  rw [Inode.addr_setAddr x l hk (by omega) (by omega)]
  split_ifs
  · exact .inr ⟨b, hb, rfl, hbit⟩
  · exact h l hl

/-- A change of the disk that unmarks no block and keeps the allocated inodes. -/
structure Keeps (d e : Disk) : Prop where
  dataBit : ∀ b < 120, d.dataBit b = true → e.dataBit b = true
  inode : ∀ i < 80, e.inode i = d.inode i
  inodeBit : ∀ i, e.inodeBit i = d.inodeBit i

theorem Keeps.refl (d : Disk) : Keeps d d := ⟨fun _ _ hb => hb, fun _ _ => rfl, fun _ => rfl⟩

theorem Keeps.trans {d₁ : Disk} (h : Keeps d d₁) (h' : Keeps d₁ e) : Keeps d e where
  dataBit b hb hbit := h'.dataBit b hb (h.dataBit b hb hbit)
  inode i hi := (h'.inode i hi).trans (h.inode i hi)
  inodeBit i := (h'.inodeBit i).trans (h.inodeBit i)

theorem keeps_takeData (d : Disk) (hb : b < 120) : Keeps d (d.takeData b) where
  dataBit b' _ hbit := by
    rw [Disk.dataBit_takeData _ _ hb, hbit, Bool.or_true]
  inode i hi := d.inode_takeData hi
  inodeBit i := d.inodeBit_takeData i hb

theorem keeps_putData (d : Disk) (c : Block) (hb : b < 120) : Keeps d (d.putData b c) where
  dataBit b' _ hbit := by rwa [Disk.dataBit_putData _ _ _ hb]
  inode i hi := Disk.inode_putData d b c hi
  inodeBit i := Disk.inodeBit_putData d i c hb

theorem least_unique {bits bits' : ℕ → Bool} (h : ∀ k, bits k = bits' k) {i i' : ℕ}
    (hfree : bits i = false) (hleast : ∀ j < i, bits j = true) (hfree' : bits' i' = false)
    (hleast' : ∀ j < i', bits' j = true) : i = i' := by
  rcases lt_trichotomy i i' with hlt | heq | hgt
  · rw [h, hleast' i hlt] at hfree
    contradiction
  · exact heq
  · rw [← h, hleast i' hgt] at hfree'
    contradiction

/-- `inode_datamap` fails on both disks, or finds the same block, which is marked then. -/
theorem Agree.inodeDatamap (h : Agree d d') (hx : x.Refers d) (hk : k < 12) :
    (inodeDatamap d x k = .ok (-1, d, x) ∧ inodeDatamap d' x k = .ok (-1, d', x)) ∨
    ∃ (b : ℕ) (e e' : Disk) (y : Inode), b < 120 ∧ e.dataBit b = true ∧
      inodeDatamap d x k = .ok ((b : ℤ), e, y) ∧ inodeDatamap d' x k = .ok ((b : ℤ), e', y) ∧
      Agree e e' ∧ Keeps d e ∧ y.Refers e := by
  have hunset := Inode.addrs_eq_neg_one x hk
  by_cases hset : x.addr k = -1
  · -- the bitmaps are equal, so both disks are full or have the same least free block
    have hmap : ∀ {d : Disk} {b : ℤ} {e : Disk}, dataAlloc d = .ok (b, e) →
        PicoShell.Fs.inodeDatamap d x k = .ok (b, e, if b = -1 then x else x.setAddr k b) := by
      intro d b e halloc
      rw [PicoShell.Fs.inodeDatamap, dif_pos hk, if_pos (hunset.mpr hset), halloc]
      simp only [bind, Except.bind, Inode.setAddr, dif_pos hk]
      split_ifs with hb
      · rw [hb]
        rfl
      · rfl
    rcases dataAlloc_cases d with ⟨hfull, halloc⟩ | ⟨b, hb, hfree, hleast, halloc⟩
    · left
      rcases dataAlloc_cases d' with ⟨-, halloc'⟩ | ⟨b, hb, hfree, -⟩
      · exact ⟨hmap halloc, hmap halloc'⟩
      · rw [← h.dataBit, hfull b hb] at hfree
        contradiction
    · right
      rcases dataAlloc_cases d' with ⟨hfull, -⟩ | ⟨b', -, hfree', hleast', halloc'⟩
      · rw [h.dataBit, hfull b hb] at hfree
        contradiction
      · obtain rfl := least_unique h.dataBit hfree hleast hfree' hleast'
        have hne : ¬ ((b : ℤ) = -1) := by omega
        have hrun := hmap halloc
        have hrun' := hmap halloc'
        rw [if_neg hne] at hrun hrun'
        have hbit : (d.takeData b).dataBit b = true := by
          rw [Disk.dataBit_takeData _ _ hb]
          simp
        have hkeeps := keeps_takeData d hb
        exact ⟨b, _, _, _, hb, hbit, hrun, hrun', h.takeData hb, hkeeps,
          (hx.mono hkeeps.dataBit).setAddr hk hb hbit⟩
  · right
    rcases hx k hk with hno | ⟨b, hb, haddr, hbit⟩
    · exact absurd hno hset
    have hrun : ∀ d, PicoShell.Fs.inodeDatamap d x k = .ok ((b : ℤ), d, x) := by
      intro d
      rw [PicoShell.Fs.inodeDatamap, dif_pos hk, if_neg fun hneg => hset (hunset.mp hneg),
        ← Inode.addr_of_lt x hk, haddr]
    exact ⟨b, d, d', x, hb, hbit, hrun d, hrun d', h, Keeps.refl d, hx⟩

theorem Agree.writeLoop (buf : Bytes n) : ∀ (fuel written p : ℕ) {d d' : Disk} {x : Inode},
    Agree d d' → x.Refers d → n - written ≤ fuel → p + (n - written) ≤ 12288 →
    ∃ r e e' y, writeLoop buf fuel written p d x = .ok (r, e, y) ∧
      PicoShell.Fs.writeLoop buf fuel written p d' x = .ok (r, e', y) ∧ Agree e e' ∧ Keeps d e ∧
      y.Refers e := by
  intro fuel
  induction fuel with
  | zero =>
    intro written p d d' x h hx hf _
    have hdone : ¬ written < n := by omega
    refine ⟨some p, d, d', x, ?_, ?_, h, Keeps.refl d, hx⟩
    · rw [PicoShell.Fs.writeLoop, if_neg hdone]
    · rw [PicoShell.Fs.writeLoop, if_neg hdone]
  | succ fuel ih =>
    intro written p d d' x h hx hf hp
    by_cases hlt : written < n
    · have hk : p / 1024 < 12 := by omega
      rw [PicoShell.Fs.writeLoop, PicoShell.Fs.writeLoop, if_pos hlt, if_pos hlt]
      rcases h.inodeDatamap hx hk with ⟨hrun, hrun'⟩ | ⟨b, e, e', y, hb, hbit, hrun, hrun', hagree,
        hkeeps, hy⟩
      · refine ⟨none, d, d', x, ?_, ?_, h, Keeps.refl d, hx⟩
        · simp only [blockSize, hrun, bind, Except.bind]
          rfl
        · simp only [blockSize, hrun', bind, Except.bind]
          rfl
      · -- the block that is read back is the same, because it is marked
        simp only [blockSize, hrun, hrun', bind, Except.bind, dataRead_of_lt e hb,
          dataRead_of_lt e' hb, dataUpdate_of_lt e _ hb, dataUpdate_of_lt e' _ hb,
          ← hagree.data b hb hbit]
        have hput := keeps_putData e ((e.data b).splice (p % 1024)
          (buf.slice written (min (n - written) (1024 - p % 1024)))) hb
        obtain ⟨r, u, u', z, hend, hend', hagree₂, hkeeps₂, hz⟩ :=
          ih (written + min (n - written) (1024 - p % 1024))
            (p + min (n - written) (1024 - p % 1024)) (hagree.putData _ hb) (hy.mono hput.dataBit)
            (by omega) (by omega)
        exact ⟨r, u, u', z, hend, hend', hagree₂, (hkeeps.trans hput).trans hkeeps₂, hz⟩
    · refine ⟨some p, d, d', x, ?_, ?_, h, Keeps.refl d, hx⟩
      · rw [PicoShell.Fs.writeLoop, if_neg hlt]
      · rw [PicoShell.Fs.writeLoop, if_neg hlt]

/-- The loop of `file_read` sees marked blocks only, and comes to an end. -/
theorem Agree.readLoop (h : Agree d d') (hx : x.Refers d) {count : ℤ} : ∀ (fuel : ℕ) (read p : ℤ)
    (buf : List UInt8), 0 ≤ p → count - read ≤ fuel → p + (count - read) ≤ 12288 →
    ∃ r, readLoop d x count fuel read p buf = .ok r ∧
      PicoShell.Fs.readLoop d' x count fuel read p buf = .ok r := by
  intro fuel
  induction fuel with
  | zero =>
    intro read p buf _ hf _
    have hdone : ¬ read < count := by omega
    refine ⟨(count, buf), ?_, ?_⟩
    · rw [PicoShell.Fs.readLoop, if_neg hdone]
    · rw [PicoShell.Fs.readLoop, if_neg hdone]
  | succ fuel ih =>
    intro read p buf hp hf hend
    rw [PicoShell.Fs.readLoop, PicoShell.Fs.readLoop]
    by_cases hlt : read < count
    · obtain ⟨q, rfl⟩ : ∃ q : ℕ, p = q := ⟨p.toNat, by omega⟩
      have hk : q / 1024 < 12 := by omega
      have huint : uintOf ((q : ℤ).tdiv 1024) = q / 1024 := by
        rw [Int.tdiv_eq_ediv_of_nonneg (by omega)]
        exact uintOf_natCast (p := q / 1024) (by omega)
      have hmod : (q : ℤ).tmod 1024 = ((q % 1024 : ℕ) : ℤ) := by
        rw [Int.tmod_eq_emod_of_nonneg (by omega)]
        rfl
      rw [if_pos hlt, if_pos hlt]
      simp only [blockSize, Nat.cast_ofNat, huint, hmod]
      rw [dif_pos hk, dif_pos hk]
      -- Both loops stop at the same unset pointer, or read the same marked block.
      rcases hx _ hk with hunset | ⟨b, hb, haddr, hbit⟩
      · rw [if_pos ((Inode.addrs_eq_neg_one x hk).mpr hunset), if_pos
          ((Inode.addrs_eq_neg_one x hk).mpr hunset)]
        exact ⟨_, rfl, rfl⟩
      · have hset : x.addrs ⟨q / 1024, hk⟩ ≠ -1 := by
          rw [ne_eq, Inode.addrs_eq_neg_one x hk]
          omega
        rw [if_neg hset, if_neg hset, ← Inode.addr_of_lt x hk, haddr, dataRead_of_lt d hb,
          dataRead_of_lt d' hb, ← h.data b hb hbit]
        simp only []
        rw [if_pos (by omega), if_pos (by omega)]
        exact ih _ _ _ (by omega) (by omega) (by omega)
    · rw [if_neg hlt, if_neg hlt]
      exact ⟨_, rfl, rfl⟩

theorem Agree.fileRead (h : Agree d d') (hx : x.Refers d) {offset count : ℤ} (hoff : 0 ≤ offset)
    (hoff' : offset < 2 ^ 31) (hcount : -2 ^ 31 ≤ count) (hcount' : count < 2 ^ 31) :
    ∃ r, fileRead d x offset count = .ok r ∧ PicoShell.Fs.fileRead d' x offset count = .ok r := by
  unfold PicoShell.Fs.fileRead
  split_ifs with hsize hwrap hmax
  · exact ⟨_, rfl, rfl⟩
  · exact ⟨_, rfl, rfl⟩
  · exact ⟨_, rfl, rfl⟩
  · -- the sum did not wrap around
    have hsum : wrapInt (offset + count) = offset + count := by
      unfold wrapInt at hwrap ⊢
      rw [Int.bmod_eq_emod] at hwrap ⊢
      split_ifs at hwrap ⊢
      · omega
      · omega
    rw [hsum] at hwrap hmax
    have hmax : offset + count ≤ 12288 := by simpa using hmax
    exact h.readLoop hx _ 0 offset [] hoff (by omega) (by omega)

/-- Every allocated inode refers to marked blocks only. -/
def Stored (d : Disk) : Prop := ∀ i < 80, d.inodeBit i = true → (d.inode i).Refers d

theorem Stored.keeps (h : Stored d) (hk : Keeps d e) : Stored e := by
  intro i hi hbit
  rw [hk.inodeBit] at hbit
  rw [hk.inode i hi]
  exact (h i hi hbit).mono hk.dataBit

theorem Stored.putInode (h : Stored d) (hi : i < 80) (hx : x.Refers d) : Stored (d.putInode i x) := by
  intro j hj hbit
  have hsame : ∀ {y : Inode}, y.Refers d → y.Refers (d.putInode i x) := fun hy =>
    hy.mono fun b _ hb => by rwa [Disk.dataBit_putInode _ _ _ hi]
  rw [Disk.inodeBit_putInode _ _ _ hi] at hbit
  rw [Disk.inode_putInode _ _ _ hi]
  split_ifs
  · exact hsame hx
  · exact hsame (h j hj hbit)

theorem Stored.takeInode (h : Stored d) (hi : i < 80) (hx : ∀ k, x.addrs k = -1) :
    Stored (d.takeInode x i) := by
  intro j hj hbit
  rw [Disk.inodeBit_takeInode _ _ _ hi, Bool.or_eq_true, decide_eq_true_eq] at hbit
  rw [Disk.inode_takeInode _ _ hi hj]
  split_ifs with hji
  · exact Inode.refers_of_unset _ hx
  · apply (h j hj (hbit.resolve_left hji)).mono
    intro b _ hb
    rwa [Disk.dataBit_takeInode _ _ _ hi]

/-- The inode goes back to its slot on both disks, or its number is in neither table. -/
theorem Agree.inodeUpdate (h : Agree d d') (hs : Stored d) (hx : x.Refers d) (inum : ℤ) :
    (inodeUpdate d x inum = none ∧ inodeUpdate d' x inum = none) ∨
    ∃ e e', inodeUpdate d x inum = some e ∧ inodeUpdate d' x inum = some e' ∧ Agree e e' ∧
      Stored e ∧ ∀ b < 120, d.dataBit b = true → e.dataBit b = true := by
  by_cases hin : inum < 0 ∨ inum ≥ 80
  · left
    have hnone : ∀ d, PicoShell.Fs.inodeUpdate d x inum = none := fun d => if_pos hin
    exact ⟨hnone d, hnone d'⟩
  · right
    obtain ⟨i, rfl⟩ : ∃ i : ℕ, inum = i := ⟨inum.toNat, by omega⟩
    have hi : i < 80 := by omega
    refine ⟨_, _, inodeUpdate_of_lt d x hi, inodeUpdate_of_lt d' x hi, h.putInode x hi,
      hs.putInode hi hx, fun b _ hb => ?_⟩
    rwa [Disk.dataBit_putInode _ _ _ hi]

theorem Agree.fileWrite (h : Agree d d') (hs : Stored d) (hx : x.Refers d) (buf : Bytes n)
    (hn : n < 2 ^ 32) {p : ℕ} (hp : p < 2 ^ 32) : ∃ r e e' y, fileWrite d x buf p = .ok (r, e, y) ∧
      PicoShell.Fs.fileWrite d' x buf p = .ok (r, e', y) ∧ Agree e e' ∧ Stored e ∧ y.Refers e ∧
      ∀ b < 120, d.dataBit b = true → e.dataBit b = true := by
  have hsame : ∃ r e e' y, (.ok (-1, d, x) : Exec (ℤ × Disk × Inode)) = .ok (r, e, y) ∧
      (.ok (-1, d', x) : Exec (ℤ × Disk × Inode)) = .ok (r, e', y) ∧ Agree e e' ∧ Stored e ∧
      y.Refers e ∧ ∀ b < 120, d.dataBit b = true → e.dataBit b = true :=
    ⟨-1, d, d', x, rfl, rfl, h, hs, hx, fun _ _ hb => hb⟩
  unfold PicoShell.Fs.fileWrite
  split_ifs with hsize hwrap hmax
  · exact hsame
  · exact hsame
  · exact hsame
  have hmax : (p + n) % 2 ^ 32 ≤ 12288 := Nat.not_lt.mp hmax
  have hend : p + n ≤ 12288 := by omega
  obtain ⟨r, e, e', y, hrun, hrun', hagree, hkeeps, hy⟩ :=
    h.writeLoop buf n 0 p hx (by omega) (by omega)
  simp only [hrun, hrun', bind, Except.bind]
  have hse := hs.keeps hkeeps
  cases r with
  | none => exact ⟨-1, e, e', y, rfl, rfl, hagree, hse, hy, hkeeps.dataBit⟩
  | some offset =>
    simp only
    split_ifs
    · have hgrown : ({ y with size := Int32.ofNat offset } : Inode).Refers e := hy
      rcases hagree.inodeUpdate hse hgrown y.inum.toInt with ⟨hnone, hnone'⟩ | ⟨u, u', hu, hu',
        hagree₂, hsu, hbits⟩
      · rw [hnone, hnone']
        exact ⟨-1, e, e', _, rfl, rfl, hagree, hse, hgrown, hkeeps.dataBit⟩
      · rw [hu, hu']
        exact ⟨n, u, u', _, rfl, rfl, hagree₂, hsu, hgrown.mono hbits,
          fun b hb hbit => hbits b hb (hkeeps.dataBit b hb hbit)⟩
    · exact ⟨n, e, e', y, rfl, rfl, hagree, hse, hy, hkeeps.dataBit⟩

theorem Agree.inodeAlloc (h : Agree d d') (hs : Stored d) (hx : ∀ k, x.addrs k = -1) :
    ∃ r e e' y, inodeAlloc d x = .ok (r, e, y) ∧ PicoShell.Fs.inodeAlloc d' x = .ok (r, e', y) ∧
      Agree e e' ∧ Stored e ∧ y.Refers e ∧ ∀ b < 120, d.dataBit b = true → e.dataBit b = true := by
  rcases inodeAlloc_cases d x with ⟨hfull, halloc⟩ | ⟨i, hi, hfree, hleast, halloc⟩
  · rcases inodeAlloc_cases d' x with ⟨-, halloc'⟩ | ⟨i, hi, hfree, -⟩
    · exact ⟨-1, d, d', x, halloc, halloc', h, hs, Inode.refers_of_unset d hx, fun _ _ hb => hb⟩
    · rw [← h.inodeBit, hfull i hi] at hfree
      contradiction
  · rcases inodeAlloc_cases d' x with ⟨hfull, -⟩ | ⟨i', -, hfree', hleast', halloc'⟩
    · rw [h.inodeBit, hfull i hi] at hfree
      contradiction
    · obtain rfl := least_unique h.inodeBit hfree hleast hfree' hleast'
      refine ⟨0, _, _, _, halloc, halloc', h.takeInode x hi, hs.takeInode hi hx,
        Inode.refers_of_unset _ hx, fun b _ hb => ?_⟩
      rwa [Disk.dataBit_takeInode _ _ _ hi]

structure Client where
  disk : Disk
  held : List Inode

/-- The calls of a client; it names the inodes it holds by their position. -/
inductive FileCall
  | alloc (inode : Inode)
  | load (inum : ℕ)
  | write (handle n : ℕ) (buf : Bytes n) (offset : ℕ)
  | read (handle : ℕ) (offset byteCount : ℤ)

/-- The return value with the bytes that were read, and the new state.  An inode that was allocated or
loaded is held from then on. -/
def Client.step (c : Client) : FileCall → Exec ((ℤ × List UInt8) × Client)
  | .alloc inode => do
    let (r, disk, inode) ← inodeAlloc c.disk inode
    return ((r, []), ⟨disk, c.held ++ [inode]⟩)
  | .load inum =>
    match inodeRead c.disk inum with
    | none => .ok ((-1, []), c)
    | some inode => .ok ((0, []), { c with held := c.held ++ [inode] })
  | .write handle _ buf offset =>
    match c.held[handle]? with
    | none => .error .pointer
    | some inode => do
      let (r, disk, inode) ← fileWrite c.disk inode buf offset
      return ((r, []), ⟨disk, c.held.set handle inode⟩)
  | .read handle offset byteCount =>
    match c.held[handle]? with
    | none => .error .pointer
    | some inode => do
      let r ← fileRead c.disk inode offset byteCount
      return (r, c)

/-- New inodes point to no block, loaded ones are allocated, the others are held, and numbers have
the type of their parameter, with no negative offset. -/
def FileCall.Ok (c : Client) : FileCall → Prop
  | .alloc inode => ∀ k, inode.addrs k = -1
  | .load inum => inum < 80 ∧ c.disk.inodeBit inum = true
  | .write handle n _ offset => handle < c.held.length ∧ n < 2 ^ 32 ∧ offset < 2 ^ 32
  | .read handle offset byteCount => handle < c.held.length ∧ 0 ≤ offset ∧ offset < 2 ^ 31 ∧
      -2 ^ 31 ≤ byteCount ∧ byteCount < 2 ^ 31

structure Twin (c c' : Client) : Prop where
  agree : Agree c.disk c'.disk
  held : c'.held = c.held
  stored : Stored c.disk
  refers : ∀ x ∈ c.held, x.Refers c.disk

/-- The inodes in a list refer to marked blocks after one more is added, or one is replaced. -/
theorem refers_of_subset {xs ys : List Inode} (hxs : ∀ y ∈ xs, y.Refers d)
    (hbits : ∀ b < 120, d.dataBit b = true → e.dataBit b = true) (hx : x.Refers e)
    (hsub : ∀ y ∈ ys, y ∈ xs ∨ y = x) : ∀ y ∈ ys, y.Refers e := by
  intro y hy
  rcases hsub y hy with hmem | rfl
  · exact (hxs y hmem).mono hbits
  · exact hx

theorem twin_keeps : Lockstep.Keeps Client.step Client.step FileCall.Ok Twin := by
  rintro ⟨d, held⟩ ⟨d', held'⟩ call ⟨hagree, hheld, hstored, hrefers⟩ hok
  obtain rfl : held' = held := hheld
  cases call with
  | alloc x =>
    obtain ⟨r, e, e', y, hrun, hrun', hagree', hstored', hy, hbits⟩ := hagree.inodeAlloc hstored hok
    refine ⟨(r, []), ⟨e, held' ++ [y]⟩, ⟨e', held' ++ [y]⟩, ?_, ?_, hagree', rfl, hstored', ?_⟩
    · simp only [Client.step, hrun, bind, Except.bind]
      rfl
    · simp only [Client.step, hrun', bind, Except.bind]
      rfl
    · exact refers_of_subset hrefers hbits hy fun z hz => by simpa using hz
  | load i =>
    obtain ⟨hi, hbit⟩ := hok
    refine ⟨(0, []), ⟨d, held' ++ [d.inode i]⟩, ⟨d', held' ++ [d.inode i]⟩, ?_, ?_, hagree, rfl,
      hstored, ?_⟩
    · simp only [Client.step, inodeRead_of_lt d hi]
    · simp only [Client.step, inodeRead_of_lt d' hi, hagree.inode hi]
    · exact refers_of_subset hrefers (fun _ _ hb => hb) (hstored i hi hbit)
        fun z hz => by simpa using hz
  | write handle n buf offset =>
    obtain ⟨hlt, hn, hoff⟩ := hok
    have hlt : handle < held'.length := hlt
    have hget : held'[handle]? = some held'[handle] := List.getElem?_eq_getElem hlt
    obtain ⟨r, e, e', y, hrun, hrun', hagree', hstored', hy, hbits⟩ :=
      hagree.fileWrite hstored (hrefers _ (List.getElem_mem hlt)) buf hn hoff
    refine ⟨(r, []), ⟨e, held'.set handle y⟩, ⟨e', held'.set handle y⟩, ?_, ?_, hagree', rfl, hstored',
      ?_⟩
    · simp only [Client.step, hget, hrun, bind, Except.bind]
      rfl
    · simp only [Client.step, hget, hrun', bind, Except.bind]
      rfl
    · exact refers_of_subset hrefers hbits hy fun z hz => List.mem_or_eq_of_mem_set hz
  | read handle offset byteCount =>
    obtain ⟨hlt, hoff, hoff', hcount, hcount'⟩ := hok
    have hlt : handle < held'.length := hlt
    have hget : held'[handle]? = some held'[handle] := List.getElem?_eq_getElem hlt
    obtain ⟨r, hrun, hrun'⟩ :=
      hagree.fileRead (hrefers _ (List.getElem_mem hlt)) hoff hoff' hcount hcount'
    refine ⟨r, ⟨d, held'⟩, ⟨d', held'⟩, ?_, ?_, hagree, rfl, hstored, hrefers⟩
    · simp only [Client.step, hget, hrun, bind, Except.bind]
      rfl
    · simp only [Client.step, hget, hrun', bind, Except.bind]
      rfl

/-- The contents of free blocks change no return value and no byte that is read, in any run of a
client; the disks agree again after it, and the client holds the same inodes. -/
theorem freed_contents_hidden (hagree : Agree d d') (hstored : Stored d) (calls : List FileCall)
    (hlegal : Lockstep.Legal Client.step FileCall.Ok calls ⟨d, []⟩) : ∃ answers e e' held,
      Lockstep.run Client.step calls ⟨d, []⟩ = .ok (answers, ⟨e, held⟩) ∧
      Lockstep.run Client.step calls ⟨d', []⟩ = .ok (answers, ⟨e', held⟩) ∧ Agree e e' ∧ Stored e := by
  have htwin : Twin ⟨d, []⟩ ⟨d', []⟩ :=
    ⟨hagree, rfl, hstored, fun _ hx => absurd hx List.not_mem_nil⟩
  obtain ⟨answers, ⟨e, held⟩, ⟨e', held'⟩, hrun, hrun', htwin'⟩ := twin_keeps.run htwin hlegal
  obtain rfl : held' = held := htwin'.held
  exact ⟨answers, e, e', held', hrun, hrun', htwin'.agree, htwin'.stored⟩

def callsRead : List FileCall :=
  [.alloc ⟨.fileT, 0, 0, 1, fun _ => -1⟩, .write 0 1 (fun _ => 7) 0, .read 0 0 2]

/-- The file gets a block that had other bytes in it, and the byte behind its end is a zero all the
same. -/
theorem freed_contents_hidden_read : ∃ answers e e' held,
    Lockstep.run Client.step callsRead ⟨Disk.zeroed, []⟩ = .ok (answers, ⟨e, held⟩) ∧
    Lockstep.run Client.step callsRead ⟨Disk.zeroed.putData 0 fun _ => 1, []⟩ =
      .ok (answers, ⟨e', held⟩) ∧ Agree e e' ∧ e.dataBit 0 = true ∧
    answers = [(0, []), (1, []), (2, [7, 0])] := by
  have hanswers : (Lockstep.run Client.step callsRead ⟨Disk.zeroed, []⟩).toOption.any (fun r =>
      r.1 = [(0, []), (1, []), (2, [7, 0])] ∧ r.2.disk.dataBit 0 = true) = true := by
    decide +kernel
  obtain ⟨r, hr, hanswers, hbit⟩ := Exec.exists_of_any hanswers
  have hagree : Agree Disk.zeroed (Disk.zeroed.putData 0 fun _ => 1) := by
    refine ⟨fun p hp => (Bytes.get_splice_outside _ _ (by omega)).symm, fun k _ hbit => ?_⟩
    simp at hbit
  have hstored : Stored Disk.zeroed := by
    intro i _ hbit
    simp at hbit
  -- the first call leaves one inode to hold, and the second one keeps their number
  have hlegal : Lockstep.Legal Client.step FileCall.Ok callsRead ⟨Disk.zeroed, []⟩ := by
    refine ⟨fun _ => rfl, fun o t hstep => ?_⟩
    obtain ⟨⟨r, e, y⟩, -, hret⟩ := Exec.bind_ok hstep
    obtain ⟨-, rfl⟩ := Exec.ok_inj hret
    refine ⟨⟨by simp, by decide, by decide⟩, fun o t hstep => ?_⟩
    obtain ⟨⟨r, e, y'⟩, -, hret⟩ := Exec.bind_ok hstep
    obtain ⟨-, rfl⟩ := Exec.ok_inj hret
    exact ⟨⟨by simp, by decide, by decide, by decide, by decide⟩, fun _ _ _ => trivial⟩
  obtain ⟨answers, e, e', held, hrun, hrun', hagree', -⟩ :=
    freed_contents_hidden hagree hstored callsRead hlegal
  obtain rfl := Except.ok.inj (hr.symm.trans hrun)
  exact ⟨answers, e, e', held, hrun, hrun', hagree', hbit, hanswers⟩

end PicoShell.Fs
