import PicoShell.Fs.Tree

namespace PicoShell.Fs

variable {d d' d₁ d₂ : Disk} {S : ℕ → Prop} {i j p n t : ℕ}

structure Touched (d d' : Disk) (S : ℕ → Prop) (i : ℕ) : Prop where
  wf : WellFormedOn d' S
  type : (d'.inode i).type = (d.inode i).type
  numLinks : (d'.inode i).numLinks = (d.inode i).numLinks
  inode : ∀ j < 80, j ≠ i → d'.inode j = d.inode j
  inodeBit : ∀ j, d'.inodeBit j = d.inodeBit j
  entries : ∀ j, S j → j ≠ i → d'.entries (d'.inode j) = d.entries (d.inode j)

theorem Written.touched {s : ℕ → UInt8} (h : Written d d' S i p n s) (hd : WellFormedOn d S) :
    Touched d d' S i :=
  ⟨h.wellFormed, h.type, h.numLinks, h.inode, h.inodeBit, fun _ hj hji => entries_other h hd hj hji⟩

theorem Touched.trans (h : Touched d d₁ S i) (h' : Touched d₁ d₂ S i) : Touched d d₂ S i where
  wf := h'.wf
  type := h'.type.trans h.type
  numLinks := h'.numLinks.trans h.numLinks
  inode j hj hji := (h'.inode j hj hji).trans (h.inode j hj hji)
  inodeBit j := (h'.inodeBit j).trans (h.inodeBit j)
  entries j hj hji := (h'.entries j hj hji).trans (h.entries j hj hji)

/-- `dir_add` of a new name to a directory without holes, while there is room. -/
theorem dirAdd_room (e : Dirent) (stack : Bytes 64) (hd : WellFormedOn d S) (hi : S i)
    (hdir : (d.inode i).type = .directoryT) (hwhole : 64 ∣ (d.inode i).len)
    (hlen : (d.inode i).len < 12288)
    (hvalid : ∀ x ∈ d.entries (d.inode i), x.valid = true)
    (hnew : ∀ x ∈ d.entries (d.inode i), x.key ≠ e.key)
    (hfree : 1024 ∣ (d.inode i).len → ∃ b < 120, d.dataBit b = false) :
    ∃ d', dirAdd d i e stack = .ok (0, d') ∧ Marks d d' (1024 ∣ (d.inode i).len) ∧
      Written d d' S i (d.inode i).len 64 e.encode.get ∧
      d'.entries (d'.inode i) = d.entries (d.inode i) ++ [e] ∧
      (d'.inode i).len = (d.inode i).len + 64 := by
  rcases dirAdd_cases e stack hd hi hdir hwhole with
    ⟨hdup, -⟩ | ⟨-, k, -, ⟨⟨x, hx, hxv⟩, -⟩, -⟩ | ⟨-, -, hfull, -⟩ |
    ⟨-, -, -, d', hmarks, hw, hrun⟩
  · have hnone := findEntry_eq_none.mpr fun x hx _ => hnew x hx
    simp [lookupEntry, hnone] at hdup
  · have hxv' := hvalid x (List.mem_of_getElem? hx)
    simp [hxv'] at hxv
  · rcases hfull with hfull | ⟨hdvd, hfull⟩
    · omega
    · obtain ⟨b, hb, hbit⟩ := hfree hdvd
      rw [hfull b hb] at hbit
      contradiction
  · have hend : 64 * ((d.inode i).len / 64) = (d.inode i).len := by omega
    have hentries := entries_written_append hw hend.symm
    rw [Dirent.decode_encode] at hentries
    rw [hend] at hw
    refine ⟨d', hrun, hmarks, hw, hentries, ?_⟩
    rw [hw.len]
    omega

/-- The data region of a tree has room. -/
theorem dirAdd_append (e : Dirent) (stack : Bytes 64) (hd : WellFormedOn d S)
    (hb : Budget d S n t) (hn : n ≤ 80) (ht : t ≤ 3 * n) (hi : S i)
    (hdir : (d.inode i).type = .directoryT) (hwhole : 64 ∣ (d.inode i).len)
    (hlen : (d.inode i).len < 12288)
    (hvalid : ∀ x ∈ d.entries (d.inode i), x.valid = true)
    (hnew : ∀ x ∈ d.entries (d.inode i), x.key ≠ e.key) :
    ∃ d', dirAdd d i e stack = .ok (0, d') ∧ Touched d d' S i ∧ Budget d' S n (t + 1) ∧
      d'.entries (d'.inode i) = d.entries (d.inode i) ++ [e] ∧
      (d'.inode i).len = (d.inode i).len + 64 := by
  obtain ⟨d', hrun, -, hw, hentries, hlen'⟩ := dirAdd_room e stack hd hi hdir hwhole hlen hvalid hnew
    fun _ => hb.exists_free hd hn ht
  exact ⟨d', hrun, hw.touched hd, hb.written hd hi hn le_rfl hw, hentries, hlen'⟩

theorem key_literal {name : List UInt8} (inum : Int32) (hz : (0 : UInt8) ∉ name)
    (hlen : name.length < 59) : (literalDirent name inum).key = name := by
  apply Bytes.cstr_eq_of_prefix _ _ hz hlen
  · intro i hi
    simp [literalDirent, Bytes.get, Bytes.ofList, hi]
    omega
  · simp [literalDirent, Bytes.get, Bytes.ofList]

@[simp] theorem key_dot (inum : Int32) : (literalDirent dotName inum).key = dotName :=
  key_literal inum (by decide) (by decide)

@[simp] theorem key_dotDot (inum : Int32) : (literalDirent dotDotName inum).key = dotDotName :=
  key_literal inum (by decide) (by decide)

theorem dotName_ne_dotDotName : dotName ≠ dotDotName := by decide

/-- A blank directory gets its dot entries, both in one new block. -/
theorem addDots_room (inum parInum : Int32) (stack : ℕ → Bytes 64) (hd : WellFormedOn d S)
    (hi : S i) (hdir : (d.inode i).type = .directoryT) (hlen : (d.inode i).len = 0)
    (hinum : inum.toInt = i) (hfree : ∃ b < 120, d.dataBit b = false) :
    ∃ d₁ d₂, addDots d inum parInum stack = .ok (true, d₂) ∧ Marks d d₁ True ∧ Marks d₁ d₂ False ∧
      Written d d₁ S i 0 64 (literalDirent dotName inum).encode.get ∧
      Written d₁ d₂ S i 64 64 (literalDirent dotDotName parInum).encode.get ∧
      d₂.entries (d₂.inode i) = [literalDirent dotName inum, literalDirent dotDotName parInum] := by
  have hlt := hd.lt i hi
  have huint : uintOf inum.toInt = i := by rw [hinum, uintOf_natCast (by omega)]
  have hnil : d.entries (d.inode i) = [] := by
    rw [← List.length_eq_zero_iff, Disk.length_entries, hlen]
  obtain ⟨d₁, hrun₁, hmarks₁, hw₁, hentries₁, hlen₁⟩ := dirAdd_room (literalDirent dotName inum)
    (stack 0) hd hi hdir (by simp [hlen]) (by omega) (by simp [hnil]) (by simp [hnil])
    fun _ => hfree
  rw [hnil, List.nil_append] at hentries₁
  rw [hlen, Nat.zero_add] at hlen₁
  obtain ⟨d₂, hrun₂, hmarks₂, hw₂, hentries₂, -⟩ := dirAdd_room (literalDirent dotDotName parInum)
    (stack 1) hw₁.wellFormed hi (by rw [hw₁.type, hdir]) (by omega) (by omega)
    (by simp [hentries₁, literalDirent])
    (by rw [hentries₁, key_dotDot]; simp [dotName_ne_dotDotName]) (by omega)
  have hdvd : ¬ 1024 ∣ (d₁.inode i).len := by omega
  have hdvd₀ : 1024 ∣ (d.inode i).len := by omega
  rw [hlen₁] at hw₂
  rw [hlen] at hw₁
  rw [eq_true hdvd₀] at hmarks₁
  rw [eq_false hdvd] at hmarks₂
  refine ⟨d₁, d₂, ?_, hmarks₁, hmarks₂, hw₁, hw₂, ?_⟩
  · rw [addDots, huint]
    simp only [bind, Except.bind, hrun₁, hrun₂]
    rfl
  · rw [hentries₂, hentries₁]
    rfl

theorem addDots_spec (inum parInum : Int32) (stack : ℕ → Bytes 64) (hd : WellFormedOn d S)
    (hb : Budget d S n t) (hn : n ≤ 80) (ht : t < 3 * n) (hi : S i)
    (hdir : (d.inode i).type = .directoryT) (hlen : (d.inode i).len = 0) (hinum : inum.toInt = i) :
    ∃ d', addDots d inum parInum stack = .ok (true, d') ∧ Touched d d' S i ∧
      Budget d' S n (t + 2) ∧
      d'.entries (d'.inode i) = [literalDirent dotName inum, literalDirent dotDotName parInum] ∧
      (d'.inode i).len = 128 := by
  obtain ⟨d₁, d₂, hrun, -, -, hw₁, hw₂, hentries⟩ := addDots_room inum parInum stack hd hi hdir hlen
    hinum (hb.exists_free hd hn (by omega))
  have hlen₁ := hw₁.len
  have hb₁ := hb.written hd hi hn (Nat.zero_le _) hw₁
  refine ⟨d₂, hrun, (hw₁.touched hd).trans (hw₂.touched hw₁.wellFormed),
    hb₁.written hw₁.wellFormed hi hn (by omega) hw₂, hentries, ?_⟩
  rw [hw₂.len]
  omega

theorem putLinks_same (hi : i < 80) (m : Int32) (j : ℕ) :
    ((d.putInode i { d.inode i with numLinks := m }).inode j).type = (d.inode j).type ∧
    ((d.putInode i { d.inode i with numLinks := m }).inode j).inum = (d.inode j).inum ∧
    ((d.putInode i { d.inode i with numLinks := m }).inode j).size = (d.inode j).size ∧
    ((d.putInode i { d.inode i with numLinks := m }).inode j).addrs = (d.inode j).addrs := by
  rw [Disk.inode_putInode _ _ _ hi]
  split_ifs with hji
  · subst hji
    exact ⟨rfl, rfl, rfl, rfl⟩
  · exact ⟨rfl, rfl, rfl, rfl⟩

theorem WellFormedOn.putLinks (hd : WellFormedOn d S) (hi : S i) (m : Int32) :
    WellFormedOn (d.putInode i { d.inode i with numLinks := m }) S := by
  have hlt := hd.lt i hi
  apply hd.of_same
  · exact fun j _ => (putLinks_same hlt m j).2
  · intro j hj k hk hset
    rw [Disk.dataBit_putInode _ _ _ hlt]
    exact hd.marked j hj k hk hset

/-- Directories with equal records and blocks have equal entries. -/
theorem Disk.entries_congr (hsize : (d'.inode j).size = (d.inode j).size)
    (haddrs : (d'.inode j).addrs = (d.inode j).addrs) (hdata : ∀ b, d'.data b = d.data b) :
    d'.entries (d'.inode j) = d.entries (d.inode j) := by
  have hlen : (d'.inode j).len = (d.inode j).len := by rw [Inode.len, hsize, Inode.len]
  have hbyte : ∀ q, d'.byte (d'.inode j) q = d.byte (d.inode j) q := by
    intro q
    rw [Disk.byte, Disk.byte, hdata, Inode.addr, haddrs, Inode.addr]
  rw [Disk.entries, Disk.entries, hlen]
  apply List.map_congr_left
  intro k _
  rw [Disk.entry, Disk.entry, funext fun t : Fin 64 => hbyte (64 * k + t.val)]

theorem entries_putLinks (hi : i < 80) (m : Int32) (j : ℕ) :
    (d.putInode i { d.inode i with numLinks := m }).entries
      ((d.putInode i { d.inode i with numLinks := m }).inode j) = d.entries (d.inode j) := by
  obtain ⟨-, -, hsize, haddrs⟩ := putLinks_same (d := d) hi m j
  exact Disk.entries_congr hsize haddrs fun b => Disk.data_putInode _ _ _ hi

theorem Budget.putLinks (hb : Budget d S n t) (hi : i < 80) (m : Int32) :
    Budget (d.putInode i { d.inode i with numLinks := m }) S n t := by
  refine ⟨hb.lt, ?_, ?_⟩
  · intro b hb' hbit
    rw [Disk.dataBit_putInode _ _ _ hi] at hbit
    obtain ⟨j, hj, k, hk, hkb⟩ := hb.owned b hb' hbit
    refine ⟨j, hj, k, hk, ?_⟩
    rw [Inode.addr, (putLinks_same hi m j).2.2.2, ← Inode.addr, hkb]
  · have hslots : ∀ j, (d.putInode i { d.inode i with numLinks := m }).slots j = d.slots j := by
      intro j
      rw [Disk.slots, Inode.len, (putLinks_same hi m j).2.2.1, ← Inode.len, Disk.slots]
    simp only [hslots]
    exact hb.slots

/-- A directory `n` with its dot entries that no directory has an entry for yet, although the link
count of its parent `p` was raised. -/
structure Dotted (d d' : Disk) (S : ℕ → Prop) (p n : ℕ) : Prop where
  wf : WellFormedOn d' fun j => S j ∨ j = n
  bit : ∀ j, d'.inodeBit j = (decide (j = n) || d.inodeBit j)
  other : ∀ j, S j → j ≠ p → d'.inode j = d.inode j
  entries : ∀ j, S j → d'.entries (d'.inode j) = d.entries (d.inode j)
  parent : d'.inode p = { d.inode p with numLinks := (d.inode p).numLinks + 1 }
  childType : (d'.inode n).type = .directoryT
  childLinks : (d'.inode n).numLinks = 1
  childLen : (d'.inode n).len = 128
  childEntries : d'.entries (d'.inode n) =
    [literalDirent dotName (Int32.ofNat n), literalDirent dotDotName (d.inode p).inum]

theorem Dotted.parentLen (h : Dotted d d' S p n) : (d'.inode p).len = (d.inode p).len := by
  rw [h.parent, Inode.len, Inode.len]

/-- The disk that the dot entries and the new link count leave. -/
theorem dotted_putInode (hwf : WellFormedOn d S) (hn : n < 80) (hSn : ¬ S n) (hp : S p)
    (htouch : Touched (d.takeInode (freshInode .directoryT 1) n) d₂ (fun j => S j ∨ j = n) n)
    (hlen : (d₂.inode n).len = 128) (hentries : d₂.entries (d₂.inode n) =
      [literalDirent dotName (Int32.ofNat n), literalDirent dotDotName (d.inode p).inum]) :
    Dotted d (d₂.putInode p { d.inode p with numLinks := (d.inode p).numLinks + 1 }) S p n := by
  have hp80 := hwf.lt p hp
  have hpn : p ≠ n := by
    rintro rfl
    exact hSn hp
  have hself₁ : (d.takeInode (freshInode .directoryT 1) n).inode n =
      { freshInode .directoryT 1 with inum := Int32.ofNat n } := by
    rw [Disk.inode_takeInode _ _ hn hn, if_pos rfl]
  have hold₁ : ∀ j, S j → (d.takeInode (freshInode .directoryT 1) n).inode j = d.inode j := by
    intro j hj
    rw [Disk.inode_takeInode _ _ hn (hwf.lt j hj), if_neg (by rintro rfl; exact hSn hj)]
  have hentries₁ : ∀ j, S j → (d.takeInode (freshInode .directoryT 1) n).entries
      ((d.takeInode (freshInode .directoryT 1) n).inode j) = d.entries (d.inode j) := by
    intro j hj
    apply Disk.entries_congr
    · rw [hold₁ j hj]
    · rw [hold₁ j hj]
    · exact fun b => Disk.data_takeInode _ _ _ hn
  have hold₂ : ∀ j, S j → d₂.inode j = d.inode j := by
    intro j hj
    have hjn : j ≠ n := by
      rintro rfl
      exact hSn hj
    rw [htouch.inode j (hwf.lt j hj) hjn, hold₁ j hj]
  -- the parent is still as the caller read it
  rw [← hold₂ p hp]
  have hinode := fun j => Disk.inode_putInode d₂ j
    { d₂.inode p with numLinks := (d₂.inode p).numLinks + 1 } hp80
  have hentries' := entries_putLinks (d := d₂) hp80 ((d₂.inode p).numLinks + 1)
  refine ⟨htouch.wf.putLinks (.inl hp) _, ?_, ?_, ?_, ?_, ?_, ?_, ?_, ?_⟩
  · intro j
    rw [Disk.inodeBit_putInode _ _ _ hp80, htouch.inodeBit, Disk.inodeBit_takeInode _ _ _ hn]
  · intro j hj hjp
    rw [hinode, if_neg hjp, hold₂ j hj]
  · intro j hj
    have hjn : j ≠ n := by
      rintro rfl
      exact hSn hj
    rw [hentries', htouch.entries j (.inl hj) hjn, hentries₁ j hj]
  · rw [hinode, if_pos rfl, hold₂ p hp]
  · rw [hinode, if_neg hpn.symm, htouch.type, hself₁]
    rfl
  · rw [hinode, if_neg hpn.symm, htouch.numLinks, hself₁]
    rfl
  · rw [hinode, if_neg hpn.symm, hlen]
  · rw [hentries', hentries]

/-- Behind the dot entries the branch comes down to an entry in the parent. -/
theorem linkDirectory_of_dots (inode : Inode) (name : NameBuf) {stack : ℕ → Bytes 64} (hp : p < 80)
    (hinum : (d.inode p).inum.toInt = p)
    (hdots : addDots d₁ inode.inum (d.inode p).inum stack = .ok (true, d₂)) :
    linkDirectory d₁ (d.inode p) inode name stack = do
      let (r, disk) ← dirAdd (d₂.putInode p { d.inode p with numLinks := (d.inode p).numLinks + 1 }) p
        ⟨true, name, inode.inum⟩ (stack 2)
      return (if r ≠ 0 then -1 else 0, disk) := by
  have huint : uintOf ((p : ℕ) : ℤ) = p := uintOf_natCast (by omega)
  have hupdate := inodeUpdate_of_lt d₂ { d.inode p with numLinks := (d.inode p).numLinks + 1 } hp
  simp only [linkDirectory, hdots, bind, Except.bind, hinum, hupdate, huint, Bool.not_true,
    Bool.false_eq_true, ↓reduceIte]

/-- A directory `n` was made under the name in the buffer in directory `p`. -/
structure Made (d d' : Disk) (S : ℕ → Prop) (p n : ℕ) (name : NameBuf) : Prop where
  wf : WellFormedOn d' fun j => S j ∨ j = n
  budget : Budget d' (fun j => S j ∨ j = n) (n + 1) (3 * (n + 1))
  bit : ∀ j, d'.inodeBit j = (decide (j = n) || d.inodeBit j)
  other : ∀ j, S j → j ≠ p → d'.inode j = d.inode j ∧
    d'.entries (d'.inode j) = d.entries (d.inode j)
  childType : (d'.inode n).type = .directoryT
  childLinks : (d'.inode n).numLinks = 1
  childLen : (d'.inode n).len = 128
  childEntries : d'.entries (d'.inode n) =
    [literalDirent dotName (Int32.ofNat n), literalDirent dotDotName (d.inode p).inum]
  parentType : (d'.inode p).type = .directoryT
  parentLinks : (d'.inode p).numLinks = (d.inode p).numLinks + 1
  parentLen : (d'.inode p).len = (d.inode p).len + 64
  parentEntries : d'.entries (d'.inode p) =
    d.entries (d.inode p) ++ [⟨true, name, Int32.ofNat n⟩]

/-- The directory branch of `fs_create` succeeds in a directory without holes. -/
theorem linkDirectory_spec (ht : Tree d S n) (hn : n < 80) (hp : S p)
    (hdir : (d.inode p).type = .directoryT) (name : NameBuf) (hnew : d.next p name.cstr = none)
    (hall : ∀ e ∈ d.entries (d.inode p), e.valid = true) (stack : ℕ → Bytes 64) :
    ∃ d', linkDirectory (d.takeInode (freshInode .directoryT 1) n) (d.inode p)
      { freshInode .directoryT 1 with inum := Int32.ofNat n } name stack = .ok (0, d') ∧
      Made d d' S p n name := by
  have hwf := ht.nav.wf
  have hp80 := hwf.lt p hp
  have hpn : p ≠ n := (ht.budget.lt p hp).ne
  have hSn : ¬ S n := fun h => absurd (ht.budget.lt n h) (lt_irrefl n)
  have hblank : (freshInode .directoryT 1).Blank := ⟨rfl, fun _ => rfl⟩
  have hn32 : (Int32.ofNat n).toInt = n := Int32.toInt_ofNat_of_lt (by omega)
  have hself₁ : (d.takeInode (freshInode .directoryT 1) n).inode n =
      { freshInode .directoryT 1 with inum := Int32.ofNat n } := by
    rw [Disk.inode_takeInode _ _ hn hn, if_pos rfl]
  -- `.` and `..` go to the new inode, whose blocks nobody else owns.
  obtain ⟨d₂, hdots, htouch₂, hb₂, hentries₂, hlen₂⟩ := addDots_spec (Int32.ofNat n)
    (d.inode p).inum stack (hwf.takeInode hblank hn) (ht.budget.takeInode hwf hblank hn)
    (by omega) (by omega) (.inr rfl) (by rw [hself₁]; rfl) (by rw [hself₁]; rfl) hn32
  have hdotted := dotted_putInode hwf hn hSn hp htouch₂ hlen₂ hentries₂
  have hb₃ := hb₂.putLinks hp80 ((d.inode p).numLinks + 1)
  -- The parent that `fs_create` writes back was read before: the dot entries left it as it was.
  have hparent₂ : d₂.inode p = d.inode p := by
    rw [htouch₂.inode p hp80 hpn, Disk.inode_takeInode _ _ hn hp80, if_neg hpn]
  rw [hparent₂] at hb₃
  have hrun := linkDirectory_of_dots { freshInode .directoryT 1 with inum := Int32.ofNat n } name
    hp80 (hwf.inum p hp) hdots
  generalize d₂.putInode p { d.inode p with numLinks := (d.inode p).numLinks + 1 } = d₃
    at hdotted hb₃ hrun
  have hslots := ht.slots p hp
  unfold Disk.slots at hslots
  -- The last slot of the parent is a new one, since none of its slots is invalid.
  obtain ⟨d₄, hrun₄, htouch₄, hb₄, hentries₄, hlen₄⟩ := dirAdd_append
    ⟨true, name, Int32.ofNat n⟩ (stack 2) hdotted.wf hb₃ (by omega) (by omega) (.inl hp)
    (by rw [hdotted.parent]; exact hdir) (by rw [hdotted.parentLen]; exact ht.nav.whole p hp hdir)
    (by rw [hdotted.parentLen]; omega) (by rwa [hdotted.entries p hp])
    (by rw [hdotted.entries p hp]; exact fun x hx => (next_eq_none hdir).mp hnew x hx (hall x hx))
  refine ⟨d₄, ?_, ?_⟩
  · rw [hrun]
    simp only [hrun₄, bind, Except.bind]
    rfl
  · have hchild := htouch₄.inode n hn hpn.symm
    refine ⟨htouch₄.wf, hb₄.mono (by omega), ?_, ?_, ?_, ?_, ?_, ?_, ?_, ?_, ?_, ?_⟩
    · intro j
      rw [htouch₄.inodeBit, hdotted.bit]
    · intro j hj hjp
      refine ⟨?_, ?_⟩
      · rw [htouch₄.inode j (hwf.lt j hj) hjp, hdotted.other j hj hjp]
      · rw [htouch₄.entries j (.inl hj) hjp, hdotted.entries j hj]
    · rw [hchild, hdotted.childType]
    · rw [hchild, hdotted.childLinks]
    · rw [hchild, hdotted.childLen]
    · rw [htouch₄.entries n (.inr rfl) hpn.symm, hdotted.childEntries]
    · rw [htouch₄.type, hdotted.parent, hdir]
    · rw [htouch₄.numLinks, hdotted.parent]
    · rw [hlen₄, hdotted.parentLen]
    · rw [hentries₄, hdotted.entries p hp]

theorem next_literal_pair (hdir : (d.inode i).type = .directoryT) {inum parInum : Int32}
    (hentries : d.entries (d.inode i) =
      [literalDirent dotName inum, literalDirent dotDotName parInum]) (c : List UInt8) :
    d.next i c = if c = dotName then some inum.toInt.toNat
      else if c = dotDotName then some parInum.toInt.toNat else none := by
  have hdot := key_dot inum
  have hup := key_dotDot parInum
  have hv : ∀ name inum, (literalDirent name inum).valid = true := fun _ _ => rfl
  rw [Disk.next, if_pos hdir, hentries, findEntry, List.find?_cons, List.find?_cons, hdot, hup, hv,
    hv, List.find?_nil]
  by_cases h : c = dotName
  · subst h
    simp [literalDirent]
  · have hd : (dotName == c) = false := beq_eq_false_iff_ne.mpr (Ne.symm h)
    rw [if_neg h]
    by_cases h' : c = dotDotName
    · subst h'
      simp [hd, literalDirent]
    · have hd' : (dotDotName == c) = false := beq_eq_false_iff_ne.mpr (Ne.symm h')
      simp [hd, hd', h']

namespace Made

variable {name : NameBuf}

theorem type (h : Made d d' S p n name) (hdir : (d.inode p).type = .directoryT) (hj : S j) :
    (d'.inode j).type = (d.inode j).type := by
  by_cases hjp : j = p
  · subst hjp
    rw [h.parentType, hdir]
  · rw [(h.other j hj hjp).1]

theorem next (h : Made d d' S p n name) (hn : n < 80) (hdir : (d.inode p).type = .directoryT)
    (hnew : d.next p name.cstr = none) (hj : S j) (c : List UInt8) :
    d'.next j c = if j = p ∧ c = name.cstr then some n else d.next j c := by
  by_cases hjp : j = p
  · subst hjp
    have hmiss := (next_eq_none hdir).mp hnew
    rw [Disk.next, if_pos h.parentType, h.parentEntries]
    by_cases hc : c = name.cstr
    · subst hc
      have hnone := findEntry_eq_none.mpr hmiss
      have hhit : findEntry [⟨true, name, Int32.ofNat n⟩] name.cstr =
          some ⟨true, name, Int32.ofNat n⟩ :=
        findEntry_of_mem (List.pairwise_singleton _ _) (List.mem_singleton.mpr rfl) rfl
      have hn32 : (Int32.ofNat n).toInt = n := Int32.toInt_ofNat_of_lt (by omega)
      rw [findEntry] at hnone hhit
      rw [if_pos ⟨rfl, rfl⟩, findEntry, List.find?_append, hnone, hhit, Option.none_or,
        Option.map_some, hn32, Int.toNat_natCast]
    · rw [if_neg (fun h => hc h.2), findEntry_append_ne fun _ => Ne.symm hc, Disk.next, if_pos hdir]
  · rw [if_neg (fun h => hjp h.1)]
    apply next_congr
    · rw [(h.other j hj hjp).1]
    · exact (h.other j hj hjp).2

theorem next_old (h : Made d d' S p n name) (hn : n < 80) (hdir : (d.inode p).type = .directoryT)
    (hnew : d.next p name.cstr = none) (hj : S j) {c : List UInt8} (hji : d.next j c = some i) :
    d'.next j c = some i := by
  rw [h.next hn hdir hnew hj, if_neg, hji]
  rintro ⟨rfl, rfl⟩
  rw [hnew] at hji
  contradiction

theorem next_child (h : Made d d' S p n name) (hn : n < 80) (hinum : (d.inode p).inum.toInt = p)
    (c : List UInt8) : d'.next n c =
      if c = dotName then some n else if c = dotDotName then some p else none := by
  rw [next_literal_pair h.childType h.childEntries, hinum, Int32.toInt_ofNat_of_lt (by omega),
    Int.toNat_natCast, Int.toNat_natCast]

theorem tree (h : Made d d' S p n name) (ht : Tree d S n) (hn : n < 80) (hp : S p)
    (hdir : (d.inode p).type = .directoryT) (hnew : d.next p name.cstr = none) :
    Tree d' (fun j => S j ∨ j = n) (n + 1) := by
  have hwf := ht.nav.wf
  have hSn : ∀ j, S j → j < n := ht.budget.lt
  have hnext := fun j hj c => h.next (j := j) hn hdir hnew hj c
  have hchild := h.next_child hn (hwf.inum p hp)
  have htype := fun j hj => h.type (j := j) hdir hj
  have hn32 : (Int32.ofNat n).toInt = n := Int32.toInt_ofNat_of_lt (by omega)
  apply Tree.of_graph ⟨h.wf, .inl ht.nav.root, ?_, ?_⟩ hn ?_ h.budget ?_ ?_
  · -- the edges
    apply ht.graph.insert_leaf (hSn p hp) (fun hS => absurd (hSn n hS) (lt_irrefl n)) hp hdir hnew
    · rw [hnext p hp, if_pos ⟨rfl, rfl⟩]
    · intro j c hj hno
      rw [hnext j hj, if_neg hno]
    · rw [hchild, if_pos rfl]
    · rw [hchild, if_neg dotName_ne_dotDotName.symm, if_pos rfl]
    · intro c hc
      rw [hchild, if_neg fun h => hc (.inl h), if_neg fun h => hc (.inr h)]
    · intro j hj
      rw [htype j hj]
    · exact h.childType
  · -- whole entries
    rintro j (hj | rfl) hjdir
    · rw [htype j hj] at hjdir
      have := ht.nav.whole j hj hjdir
      by_cases hjp : j = p
      · subst hjp
        rw [h.parentLen]
        omega
      · rwa [(h.other j hj hjp).1]
    · rw [h.childLen]
      decide
  · -- targets
    rintro j (hj | rfl) hjdir e he hv
    · rw [htype j hj] at hjdir
      have htarget := ht.nav.target j hj hjdir
      by_cases hjp : j = p
      · subst hjp
        rw [h.parentEntries] at he
        rcases List.mem_append.mp he with he | he
        · obtain ⟨k, hk, hSk⟩ := htarget e he hv
          exact ⟨k, hk, .inl hSk⟩
        · rw [List.mem_singleton.mp he]
          exact ⟨n, hn32, .inr rfl⟩
      · rw [(h.other j hj hjp).2] at he
        obtain ⟨k, hk, hSk⟩ := htarget e he hv
        exact ⟨k, hk, .inl hSk⟩
    · rw [h.childEntries] at he
      rcases List.mem_pair.mp he with rfl | rfl
      · exact ⟨j, hn32, .inr rfl⟩
      · exact ⟨p, hwf.inum p hp, .inl hp⟩
  · intro j hj
    rw [h.bit, Bool.or_eq_true, decide_eq_true_iff, ht.bits j hj]
    omega
  · rintro j (hj | rfl)
    · have := ht.slots j hj
      unfold Disk.slots at this ⊢
      by_cases hjp : j = p
      · subst hjp
        rw [h.parentLen]
        omega
      · rw [(h.other j hj hjp).1]
        omega
    · unfold Disk.slots
      rw [h.childLen]
      omega
  · -- names
    rintro j (hj | rfl) hjdir
    · rw [htype j hj] at hjdir
      have hnames := ht.names j hj hjdir
      by_cases hjp : j = p
      · subst hjp
        rw [h.parentEntries]
        exact hnames.append ((next_eq_none hdir).mp hnew)
      · rwa [(h.other j hj hjp).2]
    · rw [h.childEntries]
      apply List.pairwise_pair.mpr
      intro _ _
      rw [key_dot, key_dotDot]
      exact dotName_ne_dotDotName

end Made

end PicoShell.Fs
