import PicoShell.Fs.FileWrite

namespace PicoShell.Fs

def Allocated (d : Disk) (i : ℕ) : Prop := i < 80 ∧ d.inodeBit i = true

/-- The inodes of `S` carry their own number, point to a block exactly for each
block below their size, and own these blocks alone. -/
structure WellFormedOn (d : Disk) (S : ℕ → Prop) : Prop where
  lt : ∀ i, S i → i < 80
  inum : ∀ i, S i → (d.inode i).inum.toInt = i
  size_nonneg : ∀ i, S i → 0 ≤ (d.inode i).size.toInt
  size_le : ∀ i, S i → (d.inode i).size.toInt ≤ maxFileSize
  addrs : ∀ i, S i → ∀ k < 12, (d.inode i).addr k ≠ -1 ↔ 1024 * k < (d.inode i).len
  range : ∀ i, S i → ∀ k < 12, (d.inode i).addr k ≠ -1 →
    0 ≤ (d.inode i).addr k ∧ (d.inode i).addr k < numDataBlocks
  marked : ∀ i, S i → ∀ k < 12, (d.inode i).addr k ≠ -1 →
    d.dataBit ((d.inode i).addr k).toNat = true
  unshared : ∀ i j, S i → S j → ∀ k < 12, ∀ l < 12, (d.inode i).addr k ≠ -1 →
    (d.inode i).addr k = (d.inode j).addr l → i = j ∧ k = l

abbrev WellFormed (d : Disk) : Prop := WellFormedOn d (Allocated d)

/-- The blocks of the inodes of `S` other than `i`. -/
def Foreign (d : Disk) (S : ℕ → Prop) (i b : ℕ) : Prop :=
  ∃ j, S j ∧ j ≠ i ∧ ∃ k < 12, (d.inode j).addr k = b

variable {d d' : Disk} {S : ℕ → Prop} {i j p n : ℕ} {x' : Inode} {src : ℕ → UInt8}

namespace WellFormedOn

theorem ok (h : WellFormedOn d S) (hi : S i) : (d.inode i).Ok d (Foreign d S i) := by
  refine ⟨h.size_nonneg i hi, h.size_le i hi, ⟨⟨h.addrs i hi, h.range i hi⟩, h.marked i hi, ?_, ?_⟩⟩
  · intro k hk l hl hset heq
    exact (h.unshared i i hi hi k hk l hl hset heq).2
  · rintro k hk hset ⟨j, hj, hne, l, hl, hb⟩
    have hr := h.range i hi k hk hset
    have heq : (d.inode i).addr k = (d.inode j).addr l := by omega
    exact hne (h.unshared i j hi hj k hk l hl hset heq).1.symm

theorem foreign_marked (h : WellFormedOn d S) : ∀ b, Foreign d S i b → d.dataBit b = true := by
  rintro b ⟨j, hj, -, k, hk, hb⟩
  have := h.marked j hj k hk (by omega)
  rwa [hb, Int.toNat_natCast] at this

theorem mono {T : ℕ → Prop} (h : WellFormedOn d S) (hT : ∀ i, T i → S i) : WellFormedOn d T where
  lt i hi := h.lt i (hT i hi)
  inum i hi := h.inum i (hT i hi)
  size_nonneg i hi := h.size_nonneg i (hT i hi)
  size_le i hi := h.size_le i (hT i hi)
  addrs i hi := h.addrs i (hT i hi)
  range i hi := h.range i (hT i hi)
  marked i hi := h.marked i (hT i hi)
  unshared i j hi hj := h.unshared i j (hT i hi) (hT j hj)

theorem uintOf_inum (h : WellFormedOn d S) (hi : S i) : uintOf (d.inode i).inum.toInt = i := by
  have := h.lt i hi
  rw [h.inum i hi, uintOf_natCast (by omega)]

theorem inode_inj {i j : ℕ} (h : WellFormedOn d S) (hi : S i) (hj : S j)
    (heq : d.inode i = d.inode j) : i = j := by
  have hii := h.inum i hi
  rw [heq, h.inum j hj] at hii
  exact (Int.ofNat.inj hii).symm

/-- An inode of its own blocks joins the others, whether it was one of them or not. -/
theorem insert (h : WellFormedOn d S) (hi : i < 80) (hinum : (d'.inode i).inum.toInt = i)
    (hok : (d'.inode i).Ok d' (Foreign d S i)) (hsame : ∀ j, S j → j ≠ i → d'.inode j = d.inode j)
    (hkeep : ∀ b, d.dataBit b = true → d'.dataBit b = true) :
    WellFormedOn d' fun j => S j ∨ j = i := by
  have hcases : ∀ j, S j ∨ j = i → j = i ∨ j ≠ i ∧ S j ∧ d'.inode j = d.inode j := by
    intro j hj
    by_cases hji : j = i
    · exact .inl hji
    · have hSj := hj.resolve_right hji
      exact .inr ⟨hji, hSj, hsame j hSj hji⟩
  -- a block of the new inode is never one of another inode
  have hsep : ∀ j, S j → j ≠ i → ∀ k < 12, ∀ l < 12, (d'.inode i).addr k ≠ -1 →
      (d'.inode i).addr k ≠ (d.inode j).addr l := by
    intro j hj hji k hk l hl hset heq
    have hr := hok.mapped.range k hk hset
    exact hok.mapped.foreign k hk hset ⟨j, hj, hji, l, hl, by omega⟩
  refine ⟨?_, ?_, ?_, ?_, ?_, ?_, ?_, ?_⟩
  rotate_right
  · intro j j' hj hj' k hk l hl hset heq
    rcases hcases j hj with rfl | ⟨hji, hSj, heqj⟩
    · rcases hcases j' hj' with rfl | ⟨hji', hSj', heqj'⟩
      · exact ⟨rfl, hok.mapped.inj k hk l hl hset heq⟩
      · rw [heqj'] at heq
        exact absurd heq (hsep j' hSj' hji' k hk l hl hset)
    · rw [heqj] at hset heq
      rcases hcases j' hj' with rfl | ⟨hji', hSj', heqj'⟩
      · exact absurd heq.symm (hsep j hSj hji l hl k hk (heq ▸ hset))
      · rw [heqj'] at heq
        exact h.unshared j j' hSj hSj' k hk l hl hset heq
  all_goals
    intro j hj
    rcases hcases j hj with rfl | ⟨hji, hSj, heqj⟩
  · exact hi
  · exact h.lt j hSj
  · exact hinum
  · rw [heqj]
    exact h.inum j hSj
  · exact hok.nonneg
  · rw [heqj]
    exact h.size_nonneg j hSj
  · exact hok.le_max
  · rw [heqj]
    exact h.size_le j hSj
  · exact hok.mapped.present
  · rw [heqj]
    exact h.addrs j hSj
  · exact hok.mapped.range
  · rw [heqj]
    exact h.range j hSj
  · exact hok.mapped.marked
  · rw [heqj]
    exact fun k hk hset => hkeep _ (h.marked j hSj k hk hset)

theorem byte_foreign (h : WellFormedOn d S) (hdata : ∀ b, Foreign d S i b → d'.data b = d.data b)
    (hj : S j) (hji : j ≠ i) {q : ℕ} (hq : q < (d.inode j).len) :
    d'.byte (d.inode j) q = d.byte (d.inode j) q := by
  have hlen := (h.ok hj).len_le
  have hk : q / 1024 < 12 := by omega
  have hset := (h.addrs j hj _ hk).mpr (by omega)
  have hr := h.range j hj _ hk hset
  have hF : Foreign d S i ((d.inode j).addr (q / 1024)).toNat :=
    ⟨j, hj, hji, q / 1024, hk, by omega⟩
  rw [Disk.byte, Disk.byte, hdata _ hF]

/-- The inodes of `S` keep their number, size and blocks, and the blocks stay marked. -/
theorem of_same (h : WellFormedOn d S) (hsame : ∀ j, S j → (d'.inode j).inum = (d.inode j).inum ∧
      (d'.inode j).size = (d.inode j).size ∧ (d'.inode j).addrs = (d.inode j).addrs)
    (hbit : ∀ j, S j → ∀ k < 12, (d.inode j).addr k ≠ -1 →
      d'.dataBit ((d.inode j).addr k).toNat = true) : WellFormedOn d' S := by
  have hlen : ∀ j, S j → (d'.inode j).len = (d.inode j).len := by
    intro j hj
    rw [Inode.len, (hsame j hj).2.1, Inode.len]
  have haddr : ∀ j, S j → ∀ k, (d'.inode j).addr k = (d.inode j).addr k := by
    intro j hj k
    rw [Inode.addr, (hsame j hj).2.2, Inode.addr]
  refine ⟨h.lt, ?_, ?_, ?_, ?_, ?_, ?_, ?_⟩
  · intro j hj
    rw [(hsame j hj).1, h.inum j hj]
  · intro j hj
    rw [(hsame j hj).2.1]
    exact h.size_nonneg j hj
  · intro j hj
    rw [(hsame j hj).2.1]
    exact h.size_le j hj
  · intro j hj k hk
    rw [haddr j hj, hlen j hj]
    exact h.addrs j hj k hk
  · intro j hj k hk
    rw [haddr j hj]
    exact h.range j hj k hk
  · intro j hj k hk
    rw [haddr j hj]
    exact hbit j hj k hk
  · intro i j hi hj k hk l hl
    rw [haddr i hi, haddr j hj]
    exact h.unshared i j hi hj k hk l hl

end WellFormedOn

structure Inode.Blank (x : Inode) : Prop where
  size : x.size = 0
  addrs : ∀ k, x.addrs k = -1

namespace Inode.Blank

variable {x : Inode}

theorem addr (hx : x.Blank) (k : ℕ) : x.addr k = -1 := by
  unfold Inode.addr
  split_ifs with hk
  · rw [hx.addrs]
    rfl
  · rfl

theorem len (hx : x.Blank) : x.len = 0 := by
  rw [Inode.len, hx.size]
  rfl

end Inode.Blank

theorem Inode.Blank.ok {x : Inode} (hx : x.Blank) (d : Disk) (F : ℕ → Prop) : x.Ok d F := by
  refine ⟨by rw [hx.size]; decide, by rw [hx.size]; decide, ⟨⟨?_, ?_⟩, ?_, ?_, ?_⟩⟩
  · intro k _
    rw [hx.addr, hx.len]
    simp
  all_goals
    intro k _
    rw [hx.addr]
    simp

theorem WellFormedOn.takeInode {x : Inode} (h : WellFormedOn d S) (hx : x.Blank) (hi : i < 80) :
    WellFormedOn (d.takeInode x i) fun j => S j ∨ j = i := by
  have hself : (d.takeInode x i).inode i = { x with inum := Int32.ofNat i } := by
    rw [Disk.inode_takeInode _ _ hi hi, if_pos rfl]
  have hblank : ((d.takeInode x i).inode i).Blank := by
    rw [hself]
    exact ⟨hx.size, hx.addrs⟩
  apply h.insert hi _ (hblank.ok _ _)
  · intro j hj hji
    rw [Disk.inode_takeInode _ _ hi (h.lt j hj), if_neg hji]
  · intro b hb
    rwa [Disk.dataBit_takeInode _ _ _ hi]
  · rw [hself]
    exact Int32.toInt_ofNat_of_lt (by omega)

theorem wellFormedOn_empty (d : Disk) : WellFormedOn d fun _ => False := by
  constructor <;> simp

/-- `d'` is the disk after `n` bytes `src` were written at `p` of file `i`. -/
structure Written (d d' : Disk) (S : ℕ → Prop) (i p n : ℕ) (src : ℕ → UInt8) : Prop where
  wellFormed : WellFormedOn d' S
  size : (d'.inode i).size.toInt = (max (d.inode i).len (p + n) : ℕ)
  type : (d'.inode i).type = (d.inode i).type
  numLinks : (d'.inode i).numLinks = (d.inode i).numLinks
  byte : ∀ q < max (d.inode i).len (p + n),
    d'.byte (d'.inode i) q = if p ≤ q ∧ q < p + n then src (q - p) else d.byte (d.inode i) q
  inode : ∀ j < 80, j ≠ i → d'.inode j = d.inode j
  inodeBit : ∀ j, d'.inodeBit j = d.inodeBit j
  data : ∀ b, Foreign d S i b → d'.data b = d.data b
  fresh : ∀ b, d'.dataBit b = true → d.dataBit b = true ∨ ∃ k < 12, (d'.inode i).addr k = b
  addr : ∀ k < 12, (d.inode i).addr k ≠ -1 → (d'.inode i).addr k = (d.inode i).addr k

namespace Written

theorem len (h : Written d d' S i p n src) : (d'.inode i).len = max (d.inode i).len (p + n) := by
  rw [Inode.len, h.size]
  rfl

theorem inode_self (h : Written d d' S i p n src) (hd : WellFormedOn d S) (hi : S i)
    (hin : p + n ≤ (d.inode i).len) : d'.inode i = d.inode i := by
  have hlen : (d'.inode i).len = (d.inode i).len := by
    rw [h.len]
    omega
  ext k
  · exact h.type
  · rw [← Int32.toInt_inj, h.wellFormed.inum i hi, hd.inum i hi]
  · rw [← Int32.toInt_inj, h.size, (hd.ok hi).size_eq]
    omega
  · exact h.numLinks
  · have hk := k.isLt
    rw [← Int32.toInt_inj, ← Inode.addr_of_lt _ hk, ← Inode.addr_of_lt _ hk]
    by_cases hset : (d.inode i).addr k = -1
    · have := hd.addrs i hi k hk
      have := h.wellFormed.addrs i hi k hk
      omega
    · exact h.addr k hk hset

theorem byte_other (h : Written d d' S i p n src) (hd : WellFormedOn d S) (hj : S j) (hji : j ≠ i)
    {q : ℕ} (hq : q < (d.inode j).len) : d'.byte (d'.inode j) q = d.byte (d.inode j) q := by
  rw [h.inode j (hd.lt j hj) hji, hd.byte_foreign h.data hj hji hq]

end Written

/-- What the write loop did, once the inode is back in its slot. -/
theorem written_of_wrote (hd : WellFormedOn d S) (hi : S i)
    (h : Wrote d (d.inode i) d' x' (d.inode i).len p n src (Foreign d S i))
    (hmax : p + n ≤ 12288) :
    Written d (d'.commit i x' (p + n)) S i p n src ∧
      (d'.commit i x' (p + n)).inode i = x'.grow (p + n) := by
  have hlt := hd.lt i hi
  have hok := hd.ok hi
  have hlen : x'.len = (d.inode i).len := by rw [Inode.len, h.size, Inode.len]
  have hle := hok.len_le
  have hbits := d'.dataBit_commit hlt x' (p + n)
  -- An inode that has not grown is not written back, and need not be: nothing in it changed.
  have hself : (d'.commit i x' (p + n)).inode i = x'.grow (p + n) := by
    unfold Disk.commit Inode.grow
    split_ifs with hg
    · rw [Disk.inode_putInode _ _ _ hlt, if_pos rfl]
    · rw [h.frame.inode i hlt, h.inode_eq hok.mapped.toCovers (by omega)]
  have hother : ∀ j < 80, j ≠ i → (d'.commit i x' (p + n)).inode j = d.inode j := by
    intro j hj hji
    rw [Disk.inode_commit_ne _ hlt _ _ hji, h.frame.inode j hj]
  have hsize : (x'.grow (p + n)).size.toInt = (max (d.inode i).len (p + n) : ℕ) := by
    rw [Inode.size_grow _ hmax (by rw [h.size]; exact hok.nonneg), hlen]
  have hglen : (x'.grow (p + n)).len = max (d.inode i).len (p + n) := by
    rw [Inode.len, hsize, Int.toNat_natCast]
  have haddr : ∀ k, ((d'.commit i x' (p + n)).inode i).addr k = x'.addr k := by
    intro k
    rw [hself, Inode.addr_grow]
  obtain ⟨htype, hinum, hlinks⟩ := x'.grow_same (p + n)
  have hwf : WellFormedOn (d'.commit i x' (p + n)) S := by
    apply (hd.insert hlt _ _ (fun j hj => hother j (hd.lt j hj)) _).mono fun j hj => .inl hj
    · rw [hself, hinum, h.inum, hd.inum i hi]
    · rw [hself]
      refine ⟨?_, ?_, ?_⟩
      · omega
      · rw [hsize]
        omega
      · rw [hglen]
        exact h.mapped.congr (fun k => x'.addr_grow (p + n) k) hbits
    · intro b hb
      rw [hbits]
      exact h.frame.keep b hb
  refine ⟨⟨hwf, by rw [hself, hsize], ?_, ?_, ?_, hother, ?_, ?_, ?_, ?_⟩, hself⟩
  · rw [hself, htype, h.type]
  · rw [hself, hlinks, h.numLinks]
  · intro q hq
    rw [← h.byte q hq (by omega), Disk.byte, Disk.byte, haddr, Disk.data_commit _ hlt]
  · intro j
    rw [Disk.inodeBit_commit _ hlt, h.frame.inodeBit j]
  · intro b hb
    rw [Disk.data_commit _ hlt]
    exact h.frame.data b hb
  · intro b hb
    rw [hbits] at hb
    rcases h.frame.fresh b hb with hb | ⟨k, hk, hkb⟩
    · exact .inl hb
    · exact .inr ⟨k, hk, by rw [haddr, hkb]⟩
  · intro k hk hset
    rw [haddr, h.addr k hk hset]

/-- `file_write` on a consistent disk: it returns `-1`, or everything was written. -/
theorem fileWrite_spec (hd : WellFormedOn d S) (hi : S i) (buf : Bytes n) (hn : n < 2 ^ 32)
    (hp : p ≤ (d.inode i).len) :
    ∃ r d' x', fileWrite d (d.inode i) buf p = .ok (r, d', x') ∧
      (r = -1 ∨ r = n ∧ p + n ≤ 12288 ∧ Written d d' S i p n buf.get ∧ d'.inode i = x') := by
  have hok := hd.ok hi
  by_cases hmax : p + n ≤ 12288
  · obtain ⟨c, d₁, x₁, hwrote, -, ⟨-, -, -, hfail⟩ | ⟨hall, hdone⟩⟩ := fileWrite_cases buf hok
      hd.foreign_marked (hd.lt i hi) (hd.inum i hi) hp hmax
    · exact ⟨-1, d₁, x₁, hfail, .inl rfl⟩
    · subst hall
      obtain ⟨hw, hself⟩ := written_of_wrote hd hi hwrote hmax
      exact ⟨c, _, _, hdone, .inr ⟨rfl, hmax, hw, hself⟩⟩
  · exact ⟨-1, d, _, fileWrite_too_long buf hn hok hp (by omega), .inl rfl⟩

/-- `file_write` inside one block: it fails exactly when it needs a block and none is free, and
then leaves the disk as it was. -/
theorem fileWrite_chunk_spec (hd : WellFormedOn d S) (hi : S i) (buf : Bytes n)
    (hp : p ≤ (d.inode i).len) (hmax : p + n ≤ 12288) (hn : 0 < n) (hchunk : p % 1024 + n ≤ 1024) :
    ((d.inode i).addr (p / 1024) = -1 ∧ (∀ b < 120, d.dataBit b = true) ∧
      fileWrite d (d.inode i) buf p = .ok (-1, d, d.inode i)) ∨
    ∃ d' x', Marks d d' ((d.inode i).addr (p / 1024) = -1) ∧ Written d d' S i p n buf.get ∧
      fileWrite d (d.inode i) buf p = .ok ((n : ℤ), d', x') := by
  rcases fileWrite_chunk_cases buf (hd.ok hi) hd.foreign_marked (hd.lt i hi) (hd.inum i hi) hp hmax
    hn hchunk with hfail | ⟨d₁, x₁, hmarks, hwrote, hdone⟩
  · exact .inl hfail
  · refine .inr ⟨_, _, ?_, (written_of_wrote hd hi hwrote hmax).1, hdone⟩
    unfold Marks at hmarks ⊢
    simp only [d₁.dataBit_commit (hd.lt i hi)]
    exact hmarks

end PicoShell.Fs
