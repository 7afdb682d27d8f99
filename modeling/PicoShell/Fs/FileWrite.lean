import Mathlib.Data.Finset.Card
import PicoShell.Fs.File

/-! The effect of `file_write` on one inode and its blocks, and on everything else.
A set `F` collects the blocks of the other files: they are marked allocated and
a write must not touch them. -/

namespace PicoShell.Fs

/-- The first `m` bytes of `x` live in marked, distinct blocks outside `F`. -/
structure Mapped (d : Disk) (x : Inode) (m : ℕ) (F : ℕ → Prop) : Prop extends Covers x m where
  marked : ∀ k < 12, x.addr k ≠ -1 → d.dataBit (x.addr k).toNat = true
  inj : ∀ k < 12, ∀ l < 12, x.addr k ≠ -1 → x.addr k = x.addr l → k = l
  foreign : ∀ k < 12, x.addr k ≠ -1 → ¬ F (x.addr k).toNat

theorem Mapped.congr {d d' : Disk} {x x' : Inode} {m : ℕ} {F : ℕ → Prop} (h : Mapped d x m F)
    (haddr : ∀ k, x'.addr k = x.addr k) (hbit : ∀ b, d'.dataBit b = d.dataBit b) :
    Mapped d' x' m F := by
  refine ⟨⟨?_, ?_⟩, ?_, ?_, ?_⟩
  · simpa only [haddr] using h.present
  · simpa only [haddr] using h.range
  · simpa only [haddr, hbit] using h.marked
  · simpa only [haddr] using h.inj
  · simpa only [haddr] using h.foreign

/-- A change of `x` into `x'` leaves the inode table, the inode bitmap and the
blocks of `F` alone, and marks only blocks that `x'` points to. -/
structure Frame (d d' : Disk) (x' : Inode) (F : ℕ → Prop) : Prop where
  inode : ∀ j < 80, d'.inode j = d.inode j
  inodeBit : ∀ j, d'.inodeBit j = d.inodeBit j
  data : ∀ b, F b → d'.data b = d.data b
  keep : ∀ b, d.dataBit b = true → d'.dataBit b = true
  fresh : ∀ b, d'.dataBit b = true → d.dataBit b = true ∨ ∃ k < 12, x'.addr k = b

/-- `c` bytes `src` written at offset `p` of a file of `m` mapped bytes. -/
structure Wrote (d : Disk) (x : Inode) (d' : Disk) (x' : Inode) (m p c : ℕ) (src : ℕ → UInt8)
    (F : ℕ → Prop) : Prop where
  mapped : Mapped d' x' (max m (p + c)) F
  frame : Frame d d' x' F
  addr : ∀ k < 12, x.addr k ≠ -1 → x'.addr k = x.addr k
  type : x'.type = x.type
  inum : x'.inum = x.inum
  size : x'.size = x.size
  numLinks : x'.numLinks = x.numLinks
  byte : ∀ q < max m (p + c), q < 12288 →
    d'.byte x' q = if p ≤ q ∧ q < p + c then src (q - p) else d.byte x q

/-- The blocks that a write marks: none, or one that was free, if it needs one. -/
def Marks (d d' : Disk) (needs : Prop) : Prop :=
  (¬ needs ∧ ∀ b, d'.dataBit b = d.dataBit b) ∨
  (needs ∧ ∃ k < 120, d.dataBit k = false ∧ ∀ b, d'.dataBit b = (decide (b = k) || d.dataBit b))

variable {d d' d₁ d₂ : Disk} {x x' x₁ x₂ : Inode} {m p c c' : ℕ} {src : ℕ → UInt8} {F : ℕ → Prop}

def Disk.free (d : Disk) : Finset ℕ := (Finset.range 120).filter fun b => d.dataBit b = false

theorem Disk.mem_free (d : Disk) (b : ℕ) : b ∈ d.free ↔ b < 120 ∧ d.dataBit b = false := by
  rw [free, Finset.mem_filter, Finset.mem_range]

theorem Disk.card_free_eq_zero (d : Disk) :
    d.free.card = 0 ↔ ∀ b < 120, d.dataBit b = true := by
  simp [Finset.card_eq_zero, Finset.eq_empty_iff_forall_notMem, mem_free]

theorem Marks.card_free {needs : Prop} (h : Marks d d' needs) :
    (¬ needs ∧ d'.free.card = d.free.card) ∨ (needs ∧ d'.free.card + 1 = d.free.card) := by
  rcases h with ⟨hno, hsame⟩ | ⟨hneeds, k, hk, hfree, hbits⟩
  · have heq : d'.free = d.free := by
      ext b
      rw [Disk.mem_free, Disk.mem_free, hsame]
    exact .inl ⟨hno, congrArg Finset.card heq⟩
  · have heq : d'.free = d.free.erase k := by
      ext b
      rw [Finset.mem_erase, Disk.mem_free, Disk.mem_free, hbits]
      by_cases hbk : b = k
      · simp [hbk]
      · simp [hbk]
    rw [heq]
    exact .inr ⟨hneeds, Finset.card_erase_add_one ((d.mem_free k).mpr ⟨hk, hfree⟩)⟩

theorem Frame.trans (h : Frame d d₁ x₁ F) (h' : Frame d₁ d₂ x₂ F)
    (haddr : ∀ k < 12, x₁.addr k ≠ -1 → x₂.addr k = x₁.addr k) : Frame d d₂ x₂ F where
  inode j hj := (h'.inode j hj).trans (h.inode j hj)
  inodeBit j := (h'.inodeBit j).trans (h.inodeBit j)
  data b hb := (h'.data b hb).trans (h.data b hb)
  keep b hb := h'.keep b (h.keep b hb)
  fresh b hb := by
    rcases h'.fresh b hb with hb | hb
    · rcases h.fresh b hb with hb | ⟨k, hk, hkb⟩
      · exact .inl hb
      · exact .inr ⟨k, hk, (haddr k hk (by omega)).trans hkb⟩
    · exact .inr hb

theorem Wrote.refl (h : Mapped d x m F) (hp : p ≤ m) : Wrote d x d x m p 0 src F where
  mapped := by rwa [Nat.add_zero, max_eq_left hp]
  frame := ⟨fun _ _ => rfl, fun _ => rfl, fun _ _ => rfl, fun _ hb => hb, fun _ hb => .inl hb⟩
  addr _ _ _ := rfl
  type := rfl
  inum := rfl
  size := rfl
  numLinks := rfl
  byte q _ _ := (if_neg (by omega)).symm

/-- One write followed by the write of the bytes behind it. -/
theorem Wrote.trans (h : Wrote d x d₁ x₁ m p c src F)
    (h' : Wrote d₁ x₁ d₂ x₂ (max m (p + c)) (p + c) c' (fun i => src (c + i)) F) :
    Wrote d x d₂ x₂ m p (c + c') src F := by
  have hmax : max (max m (p + c)) (p + c + c') = max m (p + (c + c')) := by omega
  refine ⟨hmax ▸ h'.mapped, h.frame.trans h'.frame h'.addr, ?_, h'.type.trans h.type,
    h'.inum.trans h.inum, h'.size.trans h.size, h'.numLinks.trans h.numLinks, ?_⟩
  · intro k hk hx
    have h1 := h.addr k hk hx
    rw [h'.addr k hk (by rwa [h1]), h1]
  · intro q hq hq'
    rw [h'.byte q (by omega) hq']
    by_cases hlate : p + c ≤ q ∧ q < p + c + c'
    · rw [if_pos hlate, if_pos (by omega), show c + (q - (p + c)) = q - p by omega]
    · rw [if_neg hlate, h.byte q (by omega) hq']
      by_cases hearly : p ≤ q ∧ q < p + c
      · rw [if_pos hearly, if_pos (by omega)]
      · rw [if_neg hearly, if_neg (by omega)]

/-- `inode_datamap` finds the block, or fails on a full data region, or takes a
free block for an unset pointer. -/
theorem inodeDatamap_cases (d : Disk) {k : ℕ} (hk : k < 12)
    (hrange : x.addr k ≠ -1 → 0 ≤ x.addr k ∧ x.addr k < 120) :
    (∃ b : ℕ, b < 120 ∧ x.addr k = b ∧ inodeDatamap d x k = .ok ((b : ℤ), d, x)) ∨
    (x.addr k = -1 ∧ (∀ b < 120, d.dataBit b = true) ∧ inodeDatamap d x k = .ok (-1, d, x)) ∨
    ∃ b : ℕ, b < 120 ∧ x.addr k = -1 ∧ d.dataBit b = false ∧
      inodeDatamap d x k = .ok ((b : ℤ), d.takeData b, x.setAddr k b) := by
  have hunset := Inode.addrs_eq_neg_one x hk
  by_cases hset : x.addr k = -1
  · rcases dataAlloc_cases d with ⟨hfull, halloc⟩ | ⟨b, hb, hfree, _, halloc⟩
    · refine .inr (.inl ⟨hset, hfull, ?_⟩)
      rw [inodeDatamap, dif_pos hk, if_pos (hunset.mpr hset), halloc]
      rfl
    · refine .inr (.inr ⟨b, hb, hset, hfree, ?_⟩)
      rw [inodeDatamap, dif_pos hk, if_pos (hunset.mpr hset), halloc]
      have hne : ((b : ℤ)) ≠ -1 := by omega
      simp only [bind, Except.bind, if_neg hne, Inode.setAddr, dif_pos hk]
      rfl
  · obtain ⟨h0, h120⟩ := hrange hset
    refine .inl ⟨(x.addr k).toNat, by omega, by omega, ?_⟩
    rw [inodeDatamap, dif_pos hk, if_neg (fun h => hset (hunset.mp h)), ← Inode.addr_of_lt x hk,
      Int.toNat_of_nonneg h0]

theorem wrote_present (hx : Mapped d x m F) (hc : p % 1024 + c ≤ 1024) (hp : p < 12288)
    {b : ℕ} (hb : b < 120) (haddr : x.addr (p / 1024) = b) (chunk : Bytes c)
    (hsrc : ∀ i < c, chunk.get i = src i) :
    Wrote d x (d.putData b ((d.data b).splice (p % 1024) chunk)) x m p c src F := by
  have hk : p / 1024 < 12 := by omega
  have hset : x.addr (p / 1024) ≠ -1 := by omega
  have hm : 1024 * (p / 1024) < m := (hx.present _ hk).mp hset
  -- a present block that the chunk does not fill leaves the covered range as it is
  have hpres : ∀ k < 12, x.addr k ≠ -1 ↔ 1024 * k < max m (p + c) := by
    intro k hk'
    rw [hx.present k hk']
    omega
  refine ⟨⟨⟨hpres, hx.range⟩, ?_, hx.inj, hx.foreign⟩, ?_, fun _ _ _ => rfl, rfl, rfl, rfl, rfl, ?_⟩
  · intro k hk' hs
    rw [Disk.dataBit_putData d _ _ hb]
    exact hx.marked k hk' hs
  · refine ⟨fun j hj => Disk.inode_putData d _ _ hj, fun j => Disk.inodeBit_putData d _ _ hb, ?_, ?_,
      ?_⟩
    · intro b' hF
      have hne : b' ≠ b := by
        intro he
        apply hx.foreign _ hk hset
        rw [haddr, Int.toNat_natCast, ← he]
        exact hF
      rw [Disk.data_putData d _ _ hb, if_neg hne]
    · intro b' hb'
      rwa [Disk.dataBit_putData d _ _ hb]
    · intro b' hb'
      rw [Disk.dataBit_putData d _ _ hb] at hb'
      exact .inl hb'
  · intro q hq hq'
    have hq12 : q / 1024 < 12 := by omega
    have hqset : x.addr (q / 1024) ≠ -1 := (hpres _ hq12).mpr (by omega)
    simp only [Disk.byte, Disk.data_putData d _ _ hb]
    by_cases hblk : q / 1024 = p / 1024
    · rw [hblk, haddr, Int.toNat_natCast, if_pos rfl, Bytes.get_splice _ _ (by omega)]
      by_cases hin : p ≤ q ∧ q < p + c
      · rw [if_pos (by omega), if_pos hin, hsrc _ (by omega)]
        congr 1
        omega
      · rw [if_neg (by omega), if_neg hin]
    · have hne : (x.addr (q / 1024)).toNat ≠ b := by
        intro he
        have hr := hx.range _ hq12 hqset
        exact hblk (hx.inj _ hq12 _ hk hqset (by omega))
      rw [if_neg hne, if_neg (by omega)]

/-- Taking a free block for the first unmapped pointer, before anything is stored. -/
theorem mapped_takeData (hx : Mapped d x m F) (hF : ∀ b, F b → d.dataBit b = true)
    {k b : ℕ} (hk : k < 12) (hb : b < 120) (hunset : x.addr k = -1) (hfree : d.dataBit b = false)
    (hm : m = 1024 * k) : Mapped (d.takeData b) (x.setAddr k b) (m + 1) F := by
  have haddr := fun l => Inode.addr_setAddr x l hk (b := (b : ℤ)) (by omega) (by omega)
  have hbit := fun b' => d.dataBit_takeData b' hb
  -- no block of `x` is the new one, which was not marked
  have hnew : ∀ l < 12, x.addr l ≠ b := by
    intro l hl he
    have := hx.marked l hl (by omega)
    rw [he, Int.toNat_natCast, hfree] at this
    cases this
  refine ⟨⟨?_, ?_⟩, ?_, ?_, ?_⟩
  · intro l hl
    rw [haddr]
    split_ifs with hlk
    · subst hlk
      omega
    · rw [hx.present l hl]
      omega
  · intro l hl
    rw [haddr]
    split_ifs with hlk
    · omega
    · exact hx.range l hl
  · intro l hl hset
    rw [haddr] at hset ⊢
    rw [hbit]
    split_ifs at hset ⊢ with hlk
    · simp
    · simp [hx.marked l hl hset]
  · intro l hl l' hl' hset heq
    rw [haddr] at hset
    rw [haddr, haddr] at heq
    split_ifs at hset heq with h1 h2 h2
    · rw [h1, h2]
    · exact absurd heq.symm (hnew l' hl')
    · exact absurd heq (hnew l hl)
    · exact hx.inj l hl l' hl' hset heq
  · intro l hl hset
    rw [haddr] at hset ⊢
    split_ifs at hset ⊢ with hlk
    · intro hFb
      have := hF _ hFb
      rw [Int.toNat_natCast, hfree] at this
      cases this
    · exact hx.foreign l hl hset

/-- Taking the block changes no byte of the file and nothing else. -/
theorem frame_takeData (hF : ∀ b, F b → d.dataBit b = true) {k b : ℕ} (hk : k < 12)
    (hb : b < 120) (hfree : d.dataBit b = false) : Frame d (d.takeData b) (x.setAddr k b) F where
  inode j hj := d.inode_takeData hj
  inodeBit j := d.inodeBit_takeData j hb
  data b' hb' := by
    have hne : b' ≠ b := by
      intro he
      rw [← he, hF b' hb'] at hfree
      cases hfree
    rw [Disk.data_takeData _ _ hb, if_neg hne]
  keep b' hb' := by
    rw [Disk.dataBit_takeData _ _ hb, hb']
    simp
  fresh b' hb' := by
    rw [Disk.dataBit_takeData _ _ hb, Bool.or_eq_true, decide_eq_true_eq] at hb'
    rcases hb' with rfl | hb'
    · exact .inr ⟨k, hk, by rw [Inode.addr_setAddr x k hk (by omega) (by omega), if_pos rfl]⟩
    · exact .inl hb'

theorem wrote_fresh (hx : Mapped d x m F) (hF : ∀ b, F b → d.dataBit b = true) (hpm : p ≤ m)
    (hc : p % 1024 + c ≤ 1024) (hc0 : 0 < c) (hp : p < 12288) {b : ℕ} (hb : b < 120)
    (hunset : x.addr (p / 1024) = -1) (hfree : d.dataBit b = false) (chunk : Bytes c)
    (hsrc : ∀ i < c, chunk.get i = src i) :
    Wrote d x ((d.takeData b).putData b (((d.takeData b).data b).splice (p % 1024) chunk))
      (x.setAddr (p / 1024) b) m p c src F := by
  have hk : p / 1024 < 12 := by omega
  -- the unset pointer is the first one, so the write starts at a block boundary
  have hm : m = 1024 * (p / 1024) := by
    have := (hx.present _ hk).not.mp (by omega)
    omega
  have haddr : ∀ l, (x.setAddr (p / 1024) b).addr l = if l = p / 1024 then (b : ℤ) else x.addr l :=
    fun l => Inode.addr_setAddr x l hk (by omega) (by omega)
  have hmap := mapped_takeData hx hF hk hb hunset hfree hm
  have hstore := wrote_present hmap hc hp hb (by rw [haddr, if_pos rfl]) chunk hsrc
  have hmax : max (m + 1) (p + c) = max m (p + c) := by omega
  have hmono : ∀ l < 12, x.addr l ≠ -1 → (x.setAddr (p / 1024) b).addr l = x.addr l := by
    intro l hl hset
    rw [haddr, if_neg]
    rintro rfl
    exact hset hunset
  refine ⟨hmax ▸ hstore.mapped, (frame_takeData hF hk hb hfree).trans hstore.frame hstore.addr,
    hmono, Inode.setAddr_type _ _ _, Inode.setAddr_inum _ _ _, Inode.setAddr_size _ _ _,
    Inode.setAddr_numLinks _ _ _, ?_⟩
  intro q hq hq'
  rw [hstore.byte q (by omega) hq']
  split_ifs with hin
  · rfl
  · -- an old byte lies below the boundary, in a block that was there before
    have hne : q / 1024 ≠ p / 1024 := by omega
    have hset : x.addr (q / 1024) ≠ -1 := (hx.present _ (by omega)).mpr (by omega)
    have hnb : (x.addr (q / 1024)).toNat ≠ b := by
      intro he
      have := hx.marked _ (by omega) hset
      rw [he, hfree] at this
      cases this
    rw [Disk.byte, Disk.byte, haddr, if_neg hne, Disk.data_takeData _ _ hb, if_neg hnb]

variable {n : ℕ}

/-- One round of the loop: it stops on a full data region, or stores one chunk. -/
theorem writeLoop_round (buf : Bytes n) (hx : Mapped d x m F) (hF : ∀ b, F b → d.dataBit b = true)
    {written : ℕ} (fuel : ℕ) (hw : written < n) (hpm : p ≤ m) (hp : p < 12288)
    (hc : c = min (n - written) (1024 - p % 1024)) :
    (x.addr (p / 1024) = -1 ∧ (∀ b < 120, d.dataBit b = true) ∧
      writeLoop buf (fuel + 1) written p d x = .ok (none, d, x)) ∨
    ∃ d' x', Marks d d' (x.addr (p / 1024) = -1) ∧
      Wrote d x d' x' m p c (fun i => buf.get (written + i)) F ∧
      writeLoop buf (fuel + 1) written p d x =
        writeLoop buf fuel (written + c) (p + c) d' x' := by
  subst hc
  obtain ⟨c, hc⟩ : ∃ c : ℕ, min (n - written) (1024 - p % 1024) = c := ⟨_, rfl⟩
  have hk : p / 1024 < 12 := by omega
  have hsrc : ∀ i < c, (buf.slice written c).get i = buf.get (written + i) :=
    fun i hi => Bytes.get_slice _ hi
  have hstep : ∀ (b : ℕ) (d₁ : Disk) (x₁ : Inode), b < 120 →
      inodeDatamap d x (p / 1024) = .ok ((b : ℤ), d₁, x₁) →
      writeLoop buf (fuel + 1) written p d x = writeLoop buf fuel (written + c) (p + c)
        (d₁.putData b ((d₁.data b).splice (p % 1024) (buf.slice written c))) x₁ := by
    intro b d₁ x₁ hb hmap
    rw [writeLoop, if_pos hw]
    simp only [blockSize, hmap, bind, Except.bind, dataRead_of_lt d₁ hb, dataUpdate_of_lt d₁ _ hb]
    rw [hc]
  rw [hc]
  rcases inodeDatamap_cases d hk (hx.range _ hk) with ⟨b, hb, haddr, hmap⟩ | ⟨hunset, hfull, hmap⟩ |
    ⟨b, hb, hunset, hfree, hmap⟩
  · exact .inr ⟨_, _, .inl ⟨by omega, fun b' => d.dataBit_putData b' _ hb⟩,
      wrote_present hx (by omega) hp hb haddr _ hsrc, hstep b d x hb hmap⟩
  · refine .inl ⟨hunset, hfull, ?_⟩
    rw [writeLoop, if_pos hw]
    simp only [blockSize, hmap, bind, Except.bind]
    rfl
  · refine .inr ⟨_, _, .inr ⟨hunset, b, hb, hfree, fun b' => ?_⟩,
      wrote_fresh hx hF hpm (by omega) (by omega) hp hb hunset hfree _ hsrc, hstep b _ _ hb hmap⟩
    rw [Disk.dataBit_putData _ _ _ hb, Disk.dataBit_takeData _ _ hb]

theorem Marks.blockCount (h : Marks d d' (x.addr (p / 1024) = -1)) (hx : Covers x m) (hpm : p ≤ m)
    (hp : p < 12288) (hc : 0 < c) (hchunk : p % 1024 + c ≤ 1024) :
    d'.free.card + blockCount (max m (p + c)) = d.free.card + blockCount m := by
  have hiff := hx.present (p / 1024) (by omega)
  unfold Fs.blockCount
  rcases h.card_free with ⟨hset, hcard⟩ | ⟨hunset, hcard⟩
  · have hin := hiff.mp hset
    omega
  · have hout := hiff.not.mp (not_not.mpr hunset)
    omega

/-- The loop stops where it needs a block and none is free, or has written all bytes.  The blocks
that it took are those by which the file grew. -/
theorem writeLoop_spec (buf : Bytes n) : ∀ (fuel written p m : ℕ) (d : Disk) (x : Inode),
    Mapped d x m F → (∀ b, F b → d.dataBit b = true) → written ≤ n → n - written ≤ fuel → p ≤ m →
    p + (n - written) ≤ 12288 → ∃ c d' x',
      Wrote d x d' x' m p c (fun i => buf.get (written + i)) F ∧
      d'.free.card + blockCount (max m (p + c)) = d.free.card + blockCount m ∧
      ((c < n - written ∧ x'.addr ((p + c) / 1024) = -1 ∧ d'.free.card = 0 ∧
        writeLoop buf fuel written p d x = .ok (none, d', x')) ∨
      (c = n - written ∧ writeLoop buf fuel written p d x = .ok (some (p + c), d', x'))) := by
  have hdone : ∀ (fuel written p m : ℕ) (d : Disk) (x : Inode), Mapped d x m F → n ≤ written →
      p ≤ m → ∃ c d' x', Wrote d x d' x' m p c (fun i => buf.get (written + i)) F ∧
        d'.free.card + blockCount (max m (p + c)) = d.free.card + blockCount m ∧
        ((c < n - written ∧ x'.addr ((p + c) / 1024) = -1 ∧ d'.free.card = 0 ∧
          writeLoop buf fuel written p d x = .ok (none, d', x')) ∨
        (c = n - written ∧ writeLoop buf fuel written p d x = .ok (some (p + c), d', x'))) := by
    intro fuel written p m d x hx hw hpm
    refine ⟨0, d, x, .refl hx hpm, by rw [Nat.add_zero, max_eq_left hpm], .inr ⟨by omega, ?_⟩⟩
    cases fuel with
    | zero => rw [writeLoop, if_neg (by omega), Nat.add_zero]
    | succ fuel => rw [writeLoop, if_neg (by omega), Nat.add_zero]
  intro fuel
  induction fuel with
  | zero =>
    intro written p m d x hx _ hw hf hpm _
    exact hdone 0 written p m d x hx (by omega) hpm
  | succ fuel ih =>
    intro written p m d x hx hF hw hf hpm hp
    by_cases hlt : written < n
    · obtain ⟨c, hc⟩ : ∃ c : ℕ, c = min (n - written) (1024 - p % 1024) := ⟨_, rfl⟩
      have hp' : p < 12288 := by omega
      -- The round stops on a full data region, or the rest of the loop goes on behind its chunk.
      rcases writeLoop_round buf hx hF fuel hlt hpm hp' hc with ⟨hunset, hfull, hstop⟩ |
        ⟨d₁, x₁, hmarks, hwrote, hgo⟩
      · exact ⟨0, d, x, .refl hx hpm, by rw [Nat.add_zero, max_eq_left hpm],
          .inl ⟨by omega, hunset, d.card_free_eq_zero.mpr hfull, hstop⟩⟩
      · obtain ⟨c', d₂, x₂, hrest, hcount, hend⟩ := ih (written + c) (p + c) (max m (p + c)) d₁ x₁
          hwrote.mapped (fun b hb => hwrote.frame.keep b (hF b hb)) (by omega) (by omega) (by omega)
          (by omega)
        have hround := hmarks.blockCount (c := c) hx.toCovers hpm hp' (by omega) (by omega)
        simp only [Nat.add_assoc] at hrest
        have hmax : max (max m (p + c)) (p + c + c') = max m (p + (c + c')) := by omega
        rw [hmax] at hcount
        refine ⟨c + c', d₂, x₂, hwrote.trans hrest, hcount.trans hround, ?_⟩
        rw [hgo, ← Nat.add_assoc p c c']
        rcases hend with ⟨hlt', hunset, hfull, hstop⟩ | ⟨hall, hend⟩
        · exact .inl ⟨by omega, hunset, hfull, hstop⟩
        · exact .inr ⟨by omega, hend⟩
    · exact hdone (fuel + 1) written p m d x hx (by omega) hpm

theorem Wrote.inode_eq (h : Wrote d x d' x' m p c src F) (hx : Covers x m) (hin : p + c ≤ m) :
    x' = x := by
  have hmax : max m (p + c) = m := by omega
  have haddrs : x'.addrs = x.addrs := by
    funext k
    have hk := k.isLt
    have hiff := h.mapped.present k hk
    rw [hmax, ← hx.present k hk] at hiff
    have heq : x'.addr k = x.addr k := by
      by_cases hset : x.addr k = -1
      · rw [hset]
        by_contra hne
        exact hiff.mp hne hset
      · exact h.addr k hk hset
    rw [Inode.addr_of_lt _ hk, Inode.addr_of_lt _ hk, Int32.toInt_inj] at heq
    exact heq
  obtain ⟨t, i, s, l, a⟩ := x
  obtain ⟨t', i', s', l', a'⟩ := x'
  obtain ⟨rfl, rfl, rfl, rfl, rfl⟩ : t' = t ∧ i' = i ∧ s' = s ∧ l' = l ∧ a' = a :=
    ⟨h.type, h.inum, h.size, h.numLinks, haddrs⟩
  rfl

/-- An inode of at most `MAX_FILE_SIZE` bytes whose blocks are mapped. -/
structure Inode.Ok (d : Disk) (x : Inode) (F : ℕ → Prop) : Prop where
  nonneg : 0 ≤ x.size.toInt
  le_max : x.size.toInt ≤ 12288
  mapped : Mapped d x x.len F

namespace Inode.Ok

theorem legible (h : x.Ok d F) : x.Legible := ⟨h.nonneg, h.le_max, h.mapped.toCovers.present_of⟩

theorem len_le (h : x.Ok d F) : x.len ≤ 12288 := by
  have := h.le_max
  unfold Inode.len
  omega

theorem size_eq (h : x.Ok d F) : x.size.toInt = x.len := by
  have := h.nonneg
  unfold Inode.len
  omega

theorem uintOf_size (h : x.Ok d F) : uintOf x.size.toInt = x.len := by
  have := h.len_le
  rw [h.size_eq, uintOf_natCast (by omega)]

end Inode.Ok

/-- The inode after a write that ends at `e`: the size follows when it grew. -/
def Inode.grow (x : Inode) (e : ℕ) : Inode :=
  if x.len < e then { x with size := Int32.ofNat e } else x

theorem Inode.addr_grow (x : Inode) (e k : ℕ) : (x.grow e).addr k = x.addr k := by
  unfold Inode.grow
  split <;> rfl

theorem Inode.grow_same (x : Inode) (e : ℕ) :
    (x.grow e).type = x.type ∧ (x.grow e).inum = x.inum ∧ (x.grow e).numLinks = x.numLinks := by
  unfold Inode.grow
  split
  · exact ⟨rfl, rfl, rfl⟩
  · exact ⟨rfl, rfl, rfl⟩

theorem Inode.size_grow (x : Inode) {e : ℕ} (he : e ≤ 12288) (hx : 0 ≤ x.size.toInt) :
    (x.grow e).size.toInt = (max x.len e : ℕ) := by
  unfold Inode.grow
  split_ifs with h
  · rw [max_eq_right h.le]
    exact Int32.toInt_ofNat_of_lt (by omega)
  · rw [max_eq_left (by omega)]
    unfold Inode.len
    omega

/-- The disk after a write: the inode goes back to its slot when its size grew. -/
def Disk.commit (d : Disk) (i : ℕ) (x : Inode) (e : ℕ) : Disk :=
  if x.len < e then d.putInode i (x.grow e) else d

theorem Disk.dataBit_commit (d : Disk) {i : ℕ} (hi : i < 80) (x : Inode) (e b : ℕ) :
    (d.commit i x e).dataBit b = d.dataBit b := by
  unfold commit
  split_ifs
  · exact dataBit_putInode _ _ _ hi
  · rfl

theorem Disk.inodeBit_commit (d : Disk) {i : ℕ} (hi : i < 80) (x : Inode) (e j : ℕ) :
    (d.commit i x e).inodeBit j = d.inodeBit j := by
  unfold commit
  split_ifs
  · exact inodeBit_putInode _ _ _ hi
  · rfl

theorem Disk.data_commit (d : Disk) {i : ℕ} (hi : i < 80) (x : Inode) (e b : ℕ) :
    (d.commit i x e).data b = d.data b := by
  unfold commit
  split_ifs
  · exact data_putInode _ _ _ hi
  · rfl

theorem Disk.inode_commit_ne (d : Disk) {i j : ℕ} (hi : i < 80) (x : Inode) (e : ℕ) (hji : j ≠ i) :
    (d.commit i x e).inode j = d.inode j := by
  unfold commit
  split_ifs
  · rw [inode_putInode _ _ _ hi, if_neg hji]
  · rfl

/-- Inside the file-size limits the call runs the loop; stopped in the middle it returns `-1`. -/
theorem fileWrite_of_stop (buf : Bytes n) (hx : x.Ok d F) (hp : p ≤ x.len) (hmax : p + n ≤ 12288)
    (hloop : writeLoop buf n 0 p d x = .ok (none, d', x')) :
    fileWrite d x buf p = .ok (-1, d', x') := by
  have hmod : (p + n) % 2 ^ 32 = p + n := Nat.mod_eq_of_lt (by omega)
  rw [fileWrite, hx.uintOf_size, if_neg (by omega), hmod, if_neg (by omega),
    if_neg (by simp; omega), hloop]
  rfl

theorem fileWrite_of_done (buf : Bytes n) (hx : x.Ok d F) {i : ℕ} (hi : i < 80)
    (hinum : x.inum.toInt = i) (hp : p ≤ x.len) (hmax : p + n ≤ 12288)
    (hwrote : Wrote d x d' x' x.len p n buf.get F)
    (hloop : writeLoop buf n 0 p d x = .ok (some (p + n), d', x')) :
    fileWrite d x buf p = .ok ((n : ℤ), d'.commit i x' (p + n), x'.grow (p + n)) := by
  have hmod : (p + n) % 2 ^ 32 = p + n := Nat.mod_eq_of_lt (by omega)
  have hlen : x'.len = x.len := by rw [Inode.len, hwrote.size, Inode.len]
  have huint : uintOf x'.size.toInt = x'.len := by rw [hwrote.size, hx.uintOf_size, hlen]
  rw [fileWrite, hx.uintOf_size, if_neg (by omega), hmod, if_neg (by omega),
    if_neg (by simp; omega), hloop]
  simp only [bind, Except.bind, huint]
  by_cases hg : x'.len < p + n
  · rw [if_pos hg]
    simp only [hwrote.inum, hinum, inodeUpdate_of_lt _ _ hi, Disk.commit, Inode.grow, if_pos hg]
    rfl
  · rw [if_neg hg]
    simp only [Disk.commit, Inode.grow, if_neg hg]
    rfl

/-- A call that is inside the file-size limits returns `-1` in the middle of the loop, where it
needs a block and none is free, or writes all bytes and commits the inode. -/
theorem fileWrite_cases (buf : Bytes n) (hx : x.Ok d F) (hF : ∀ b, F b → d.dataBit b = true)
    {i : ℕ} (hi : i < 80) (hinum : x.inum.toInt = i) (hp : p ≤ x.len) (hmax : p + n ≤ 12288) :
    ∃ c d' x', Wrote d x d' x' x.len p c buf.get F ∧
      d'.free.card + blockCount (max x.len (p + c)) = d.free.card + blockCount x.len ∧
      ((c < n ∧ x'.addr ((p + c) / 1024) = -1 ∧ d'.free.card = 0 ∧
        fileWrite d x buf p = .ok (-1, d', x')) ∨
      (c = n ∧ fileWrite d x buf p = .ok ((n : ℤ), d'.commit i x' (p + n), x'.grow (p + n)))) := by
  obtain ⟨c, d', x', hwrote, hcount, hloop⟩ := writeLoop_spec buf n 0 p x.len d x hx.mapped hF
    (by omega) (by omega) hp (by omega)
  simp only [Nat.sub_zero, Nat.zero_add] at hwrote hloop
  refine ⟨c, d', x', hwrote, hcount, ?_⟩
  rcases hloop with ⟨hlt, hunset, hfull, hloop⟩ | ⟨rfl, hloop⟩
  · exact .inl ⟨hlt, hunset, hfull, fileWrite_of_stop buf hx hp hmax hloop⟩
  · exact .inr ⟨rfl, fileWrite_of_done buf hx hi hinum hp hmax hwrote hloop⟩

/-- A write inside one block fails only on a full data region, and then changes nothing. -/
theorem fileWrite_chunk_cases (buf : Bytes n) (hx : x.Ok d F)
    (hF : ∀ b, F b → d.dataBit b = true) {i : ℕ} (hi : i < 80) (hinum : x.inum.toInt = i)
    (hp : p ≤ x.len) (hmax : p + n ≤ 12288) (hn : 0 < n) (hchunk : p % 1024 + n ≤ 1024) :
    (x.addr (p / 1024) = -1 ∧ (∀ b < 120, d.dataBit b = true) ∧
      fileWrite d x buf p = .ok (-1, d, x)) ∨
    ∃ d' x', Marks d d' (x.addr (p / 1024) = -1) ∧ Wrote d x d' x' x.len p n buf.get F ∧
      fileWrite d x buf p = .ok ((n : ℤ), d'.commit i x' (p + n), x'.grow (p + n)) := by
  obtain ⟨fuel, rfl⟩ : ∃ fuel, n = fuel + 1 := ⟨n - 1, by omega⟩
  have hc : fuel + 1 = min (fuel + 1 - 0) (1024 - p % 1024) := by omega
  rcases writeLoop_round buf hx.mapped hF fuel hn hp (by omega) hc with
    ⟨hunset, hfull, hstop⟩ | ⟨d', x', hmarks, hwrote, hgo⟩
  · exact .inl ⟨hunset, hfull, fileWrite_of_stop buf hx hp hmax hstop⟩
  · simp only [Nat.zero_add] at hwrote hgo
    have hend : writeLoop buf fuel (fuel + 1) (p + (fuel + 1)) d' x' =
        .ok (some (p + (fuel + 1)), d', x') := by
      cases fuel <;> rw [writeLoop, if_neg (by omega)]
    rw [hend] at hgo
    exact .inr ⟨d', x', hmarks, hwrote, fileWrite_of_done buf hx hi hinum hp hmax hwrote hgo⟩

/-- A call that would pass the file-size limit changes nothing. -/
theorem fileWrite_too_long (buf : Bytes n) (hn : n < 2 ^ 32) (hx : x.Ok d F) (hp : p ≤ x.len)
    (hmax : 12288 < p + n) : fileWrite d x buf p = .ok (-1, d, x) := by
  have hlen := hx.len_le
  rw [fileWrite, hx.uintOf_size, if_neg (by omega)]
  by_cases hwrap : p + n < 2 ^ 32
  · rw [Nat.mod_eq_of_lt hwrap, if_neg (by omega), if_pos (by simp; omega)]
  · rw [if_pos (by omega)]

end PicoShell.Fs
