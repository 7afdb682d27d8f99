import PicoShell.Fs.CreateTree

namespace PicoShell.Fs

variable {d d' d₁ d₂ : Disk} {S : ℕ → Prop} {i p : ℕ} {path : CString} {type : FileType}
  {name name' : NameBuf} {stack : ℕ → Bytes 64}

/-- The bitmaps, the inode table and the data blocks in use are as they were. -/
structure SameDisk (d d' : Disk) : Prop where
  inodeBit : ∀ i < 80, d'.inodeBit i = d.inodeBit i
  dataBit : ∀ b < 120, d'.dataBit b = d.dataBit b
  inode : ∀ i < 80, d'.inode i = d.inode i
  data : ∀ b < 120, d.dataBit b = true → d'.data b = d.data b

theorem SameDisk.refl (d : Disk) : SameDisk d d :=
  ⟨fun _ _ => rfl, fun _ _ => rfl, fun _ _ => rfl, fun _ _ _ => rfl⟩

/-- There is a block for a new directory, and a place for its entry in directory `p`. -/
def HasRoom (d : Disk) (p : ℕ) : Prop :=
  ∃ b < 120, d.dataBit b = false ∧ (HasHole d p ∨ (d.inode p).len < 12288 ∧
    (1024 ∣ (d.inode p).len → ∃ b' < 120, b' ≠ b ∧ d.dataBit b' = false))

theorem addDots_full (inum parInum : Int32) (stack : ℕ → Bytes 64) (hd : WellFormedOn d S)
    (hi : S i) (hdir : (d.inode i).type = .directoryT) (hlen : (d.inode i).len = 0)
    (hinum : inum.toInt = i) (hfull : ∀ b < 120, d.dataBit b = true) :
    addDots d inum parInum stack = .ok (false, d) := by
  have hlt := hd.lt i hi
  have huint : uintOf inum.toInt = i := by rw [hinum, uintOf_natCast (by omega)]
  have hnil : d.entries (d.inode i) = [] := by
    rw [← List.length_eq_zero_iff, Disk.length_entries, hlen]
  rw [addDots, huint]
  rcases dirAdd_cases (literalDirent dotName inum) (stack 0) hd hi hdir (by simp [hlen]) with
    ⟨hdup, -⟩ | ⟨-, k, -, ⟨⟨x, hx, -⟩, -⟩, -⟩ | ⟨-, -, -, hrun⟩ | ⟨-, -, ⟨-, hroom⟩, -⟩
  · rw [hnil] at hdup
    exact absurd rfl hdup
  · rw [hnil] at hx
    contradiction
  · simp only [bind, Except.bind, hrun]
    rfl
  · rcases hroom with hdvd | ⟨b, hb, hfree⟩
    · omega
    · rw [hfull b hb] at hfree
      contradiction

theorem Marks.dots (h : Marks d d₁ True) (h' : Marks d₁ d₂ False) : ∃ k < 120,
    d.dataBit k = false ∧ ∀ b, d₂.dataBit b = (decide (b = k) || d.dataBit b) := by
  rcases h with ⟨hno, -⟩ | ⟨-, k, hk, hfree, hbits⟩
  · exact absurd trivial hno
  · rcases h' with ⟨-, hsame⟩ | ⟨hno, -⟩
    · exact ⟨k, hk, hfree, fun b => by rw [hsame, hbits]⟩
    · contradiction

/-- What is left of the room once the new directory has its block. -/
theorem hasRoom_iff {k : ℕ} (hk : k < 120) (hfree : d.dataBit k = false) : HasRoom d p ↔
    HasHole d p ∨ (d.inode p).len < 12288 ∧
      (1024 ∣ (d.inode p).len → ∃ b < 120, b ≠ k ∧ d.dataBit b = false) := by
  constructor
  · rintro ⟨b, hb, hbit, hole | ⟨hlen, hmore⟩⟩
    · exact .inl hole
    · refine .inr ⟨hlen, fun hdvd => ?_⟩
      obtain ⟨b', hb', hne, hbit'⟩ := hmore hdvd
      by_cases hbk : b = k
      · exact ⟨b', hb', hbk ▸ hne, hbit'⟩
      · exact ⟨b, hb, hbk, hbit⟩
  · exact fun h => ⟨k, hk, hfree, h⟩

/-- The last step, the entry in the parent, while block `k` is the one of the new directory. -/
theorem Dotted.link {k : ℕ} (hdotted : Dotted d d' S p i) (h : Navigable d S) (hp : S p)
    (hdir : (d.inode p).type = .directoryT)
    (hbits : ∀ b, d'.dataBit b = (decide (b = k) || d.dataBit b)) (name : NameBuf)
    (hnew : d.next p name.cstr = none) (stack : Bytes 64) : ∃ r d'',
    (dirAdd d' p ⟨true, name, Int32.ofNat i⟩ stack >>= fun x =>
      (pure (if x.1 ≠ 0 then -1 else 0, x.2) : Exec (ℤ × Disk))) = .ok (r, d'') ∧
      (r = -1 ↔ ¬ (HasHole d p ∨ (d.inode p).len < 12288 ∧
        (1024 ∣ (d.inode p).len → ∃ b < 120, b ≠ k ∧ d.dataBit b = false))) ∧
      d''.inodeBit i = true := by
  have hbit : d'.inodeBit i = true := by
    rw [hdotted.bit]
    simp
  have hdir' : (d'.inode p).type = .directoryT := by
    rw [hdotted.parent]
    exact hdir
  have hwhole : 64 ∣ (d'.inode p).len := by
    rw [hdotted.parentLen]
    exact h.whole p hp hdir
  rw [← hdotted.parentLen]
  unfold HasHole
  rw [← hdotted.entries p hp]
  rcases dirAdd_cases ⟨true, name, Int32.ofNat i⟩ stack hdotted.wf (.inl hp) hdir' hwhole with
    ⟨hdup, -⟩ | ⟨-, l, d₁, ⟨⟨x, hx, hxv⟩, -⟩, -, hw, hadd⟩ | ⟨-, hall, hfull, hadd⟩ |
    ⟨-, hall, ⟨hlt, hroom⟩, d₁, -, hw, hadd⟩
  · -- the name is new
    have hnone := findEntry_eq_none.mpr ((next_eq_none hdir).mp hnew)
    rw [hdotted.entries p hp] at hdup
    have : lookupEntry (d.entries (d.inode p)) name.cstr = -1 := by rw [lookupEntry, hnone]
    exact absurd this hdup
  · -- the first hole takes it
    refine ⟨0, d₁, by simp only [bind, Except.bind, hadd]; rfl, iff_of_false (by decide) ?_, ?_⟩
    · rw [not_not]
      exact .inl ⟨x, List.mem_of_getElem? hx, by simpa using hxv⟩
    · rw [hw.inodeBit, hbit]
  · refine ⟨-1, d', by simp only [bind, Except.bind, hadd]; rfl, iff_of_true rfl ?_, hbit⟩
    rintro (⟨x, hx, hxv⟩ | ⟨hlt, hmore⟩)
    · rw [hall x hx] at hxv
      contradiction
    · rcases hfull with hlen | ⟨hdvd, hfull⟩
      · omega
      · obtain ⟨b, hb, hne, hfree⟩ := hmore hdvd
        have := hfull b hb
        rw [hbits, hfree] at this
        simp [hne] at this
  · refine ⟨0, d₁, by simp only [bind, Except.bind, hadd]; rfl, iff_of_false (by decide) ?_, ?_⟩
    · rw [not_not]
      refine .inr ⟨hlt, fun hdvd => ?_⟩
      obtain ⟨b, hb, hfree⟩ := hroom.resolve_left (not_not.mpr hdvd)
      rw [hbits, Bool.or_eq_false_iff] at hfree
      exact ⟨b, hb, by simpa using hfree.1, hfree.2⟩
    · rw [hw.inodeBit, hbit]

/-- The directory branch of `fs_create` succeeds if there is room, and keeps the inode either way. -/
theorem linkDirectory_outcome (h : Navigable d S) (hi : i < 80) (hSi : ¬ S i) (hp : S p)
    (hdir : (d.inode p).type = .directoryT) (name : NameBuf) (hnew : d.next p name.cstr = none)
    (stack : ℕ → Bytes 64) : ∃ r d', linkDirectory (d.takeInode (freshInode .directoryT 1) i)
        (d.inode p) { freshInode .directoryT 1 with inum := Int32.ofNat i } name stack = .ok (r, d') ∧
      (r = -1 ↔ ¬ HasRoom d p) ∧ d'.inodeBit i = true := by
  have hwf := h.wf
  have hblank : (freshInode .directoryT 1).Blank := ⟨rfl, fun _ => rfl⟩
  have hi32 : (Int32.ofNat i).toInt = i := Int32.toInt_ofNat_of_lt (by omega)
  have hwf₁ := hwf.takeInode hblank hi
  have hself₁ : (d.takeInode (freshInode .directoryT 1) i).inode i =
      { freshInode .directoryT 1 with inum := Int32.ofNat i } := by
    rw [Disk.inode_takeInode _ _ hi hi, if_pos rfl]
  have htype₁ : ((d.takeInode (freshInode .directoryT 1) i).inode i).type = .directoryT := by
    rw [hself₁]
    rfl
  have hlen₁ : ((d.takeInode (freshInode .directoryT 1) i).inode i).len = 0 := by
    rw [hself₁]
    rfl
  have hbits₁ := fun b => Disk.dataBit_takeInode d (freshInode .directoryT 1) b hi
  by_cases hfree : ∃ b < 120, d.dataBit b = false
  · -- the dot entries find a block
    obtain ⟨d₁, d₂, hdots, hmarks₁, hmarks₂, hw₁, hw₂, hentries₂⟩ := addDots_room (Int32.ofNat i)
      (d.inode p).inum stack hwf₁ (.inr rfl) htype₁ hlen₁ hi32 (by simpa only [hbits₁] using hfree)
    obtain ⟨k, hk, hkfree, hbits₂⟩ := hmarks₁.dots hmarks₂
    simp only [hbits₁] at hkfree hbits₂
    have hp80 := hwf.lt p hp
    have htouch := (hw₁.touched hwf₁).trans (hw₂.touched hw₁.wellFormed)
    have hlen₂ : (d₂.inode i).len = 128 := by
      have := hw₁.len
      rw [hw₂.len]
      omega
    have hdotted := dotted_putInode hwf hi hSi hp htouch hlen₂ hentries₂
    have hrun := linkDirectory_of_dots { freshInode .directoryT 1 with inum := Int32.ofNat i } name
      hp80 (hwf.inum p hp) hdots
    rw [hrun, hasRoom_iff hk hkfree]
    apply hdotted.link h hp hdir _ name hnew (stack 2)
    intro b
    rw [Disk.dataBit_putInode _ _ _ hp80, hbits₂]
  · push Not at hfree
    have hdots := addDots_full (Int32.ofNat i) (d.inode p).inum stack hwf₁ (.inr rfl) htype₁ hlen₁ hi32
      fun b hb => by rw [hbits₁]; simpa using hfree b hb
    refine ⟨-1, d.takeInode (freshInode .directoryT 1) i, ?_, iff_of_true rfl ?_, ?_⟩
    · simp only [linkDirectory, hdots, bind, Except.bind]
      rfl
    · rintro ⟨b, hb, hbit, -⟩
      exact hfree b hb hbit
    · rw [Disk.inodeBit_takeInode _ _ _ hi]
      simp

/-- Directory `p` exists, and the last component of the path is no name in it. -/
def NamesNew (d : Disk) (path : CString) (p : ℕ) : Prop :=
  ∃ cs c, components path.bytes = cs ++ [c] ∧ Walk.walk d.next 0 cs = some p ∧
    (d.inode p).type = .directoryT ∧ d.next p c = none

theorem NamesNew.unique {q : ℕ} (h : NamesNew d path p) (h' : NamesNew d path q) : p = q := by
  obtain ⟨cs, c, hcs, hwalk, -, -⟩ := h
  obtain ⟨cs', c', hcs', hwalk', -, -⟩ := h'
  obtain ⟨rfl, -⟩ := List.append_inj' (hcs.symm.trans hcs') rfl
  exact Option.some.inj (hwalk.symm.trans hwalk')

/-- A new directory with a place in the inode table and in the tree, but no room for its blocks. -/
def Strands (d : Disk) (path : CString) (type : FileType) : Prop :=
  type = .directoryT ∧ (∃ i < 80, d.inodeBit i = false) ∧ ∃ p, NamesNew d path p ∧ ¬ HasRoom d p

/-- `fs_create` refuses and leaves the disk alone, or makes a file, or has taken an inode. -/
theorem Navigable.create_cases (h : Navigable d S) (hpath : Legal path) (type : FileType)
    (name : NameBuf) (stack : ℕ → Bytes 64) :
    (fsCreate d path type name stack = .ok (-1, d) ∧ ¬ (type = .directoryT ∧
      (∃ i < 80, d.inodeBit i = false) ∧ ∃ p, NamesNew d path p)) ∨
    (type ≠ .directoryT ∧ ∃ d', fsCreate d path type name stack = .ok (0, d')) ∨
    ∃ p i name', type = .directoryT ∧ NamesNew d path p ∧ S p ∧ i < 80 ∧ d.inodeBit i = false ∧
      d.next p name'.cstr = none ∧ fsCreate d path type name stack =
        linkDirectory (d.takeInode (freshInode .directoryT 1) i) (d.inode p)
          { freshInode .directoryT 1 with inum := Int32.ofNat i } name' stack := by
  rw [fsCreate]
  by_cases htype : type ≠ .fileT ∧ type ≠ .directoryT
  · exact .inl ⟨if_pos htype, fun hd => htype.2 hd.1⟩
  rw [if_neg htype]
  obtain ⟨cs, c, name', hcs, hrun, hkey⟩ := h.lookupParent_legal hpath name
  -- What the new name is has been said without the code: here the code splits the path alike.
  have hnames : ∀ q, NamesNew d path q → Walk.walk d.next 0 cs = some q ∧
      (d.inode q).type = .directoryT ∧ d.next q c = none := by
    rintro q ⟨cs', c', hcs', hq⟩
    obtain ⟨rfl, hc⟩ := List.append_inj' (hcs.symm.trans hcs') rfl
    obtain rfl := List.singleton_inj.mp hc
    exact hq
  simp only [bind, Except.bind, hrun]
  cases hwalk : Walk.walk d.next 0 cs with
  | none =>
    refine .inl ⟨rfl, ?_⟩
    rintro ⟨-, -, q, hq⟩
    rw [(hnames q hq).1] at hwalk
    contradiction
  | some p =>
  have hp : S p := h.closed.walk h.root hwalk
  obtain rfl : name'.cstr = c := hkey (by simp [hwalk])
  rw [Option.bind_some]
  by_cases hdir : (d.inode p).type = .directoryT
  swap
  · rw [if_neg hdir]
    refine .inl ⟨rfl, ?_⟩
    rintro ⟨-, -, q, hq⟩
    obtain ⟨hq, hqdir, -⟩ := hnames q hq
    obtain rfl := Option.some.inj (hwalk.symm.trans hq)
    exact hdir hqdir
  rw [if_pos hdir]
  simp only [h.wf.uintOf_inum hp, h.dirLookup hp]
  cases hnext : d.next p name'.cstr with
  | some j =>
    have hne : (j : ℤ) ≠ -1 := by omega
    simp only [ne_eq, hne, not_false_eq_true, ↓reduceIte]
    refine .inl ⟨rfl, ?_⟩
    rintro ⟨-, -, q, hq⟩
    obtain ⟨hq, -, hnone⟩ := hnames q hq
    obtain rfl := Option.some.inj (hwalk.symm.trans hq)
    rw [hnext] at hnone
    contradiction
  | none =>
  simp only [ne_eq, not_true_eq_false, ↓reduceIte]
  rcases inodeAlloc_cases d (freshInode type 1) with ⟨hfull, halloc⟩ | ⟨i, hi, hfree, -, halloc⟩
  · simp only [halloc, ↓reduceIte]
    refine .inl ⟨rfl, ?_⟩
    rintro ⟨-, ⟨i, hi, hfree⟩, -⟩
    rw [hfull i hi] at hfree
    contradiction
  · simp only [halloc]
    by_cases htd : type = .directoryT
    · subst htd
      exact .inr (.inr ⟨p, i, name', rfl, ⟨cs, _, hcs, hwalk, hdir, hnext⟩, hp, hi, hfree, hnext, rfl⟩)
    · rw [if_neg htd]
      exact .inr (.inl ⟨htd, _, rfl⟩)

/-- The call fails with an inode that was free marked in the bitmap. -/
theorem Navigable.strands (h : Navigable d S) (halloc : ∀ i, S i → d.inodeBit i = true)
    (hpath : Legal path) (name : NameBuf) (stack : ℕ → Bytes 64) {type : FileType}
    (hs : Strands d path type) : ∃ d', fsCreate d path type name stack = .ok (-1, d') ∧
      ∃ i < 80, d.inodeBit i = false ∧ d'.inodeBit i = true := by
  obtain ⟨htype, hfree, q, hq, hroom⟩ := hs
  rcases h.create_cases hpath type name stack with ⟨-, hno⟩ | ⟨hfile, -⟩ |
    ⟨p, i, name', -, hp, hSp, hi, hbit, hnew, hrun⟩
  · exact absurd ⟨htype, hfree, q, hq⟩ hno
  · exact absurd htype hfile
  obtain rfl := hp.unique hq
  have hSi : ¬ S i := by
    intro hSi
    rw [halloc i hSi] at hbit
    contradiction
  obtain ⟨-, -, -, -, hdir, -⟩ := hq
  obtain ⟨r, d', hlink, hr, hbit'⟩ := linkDirectory_outcome h hi hSi hSp hdir name' hnew stack
  rw [hlink, hr.mpr hroom] at hrun
  exact ⟨d', hrun, i, hi, hbit, hbit'⟩

/-- A call that fails leaves the disk as it was unless the new directory is stranded. -/
theorem create_atomic_iff (h : Navigable d S) (halloc : ∀ i, S i → d.inodeBit i = true)
    (hpath : Legal path) (type : FileType) (name : NameBuf) (stack : ℕ → Bytes 64) :
    (∀ d', fsCreate d path type name stack = .ok (-1, d') → SameDisk d d') ↔
      ¬ Strands d path type := by
  constructor
  · intro hsame hs
    obtain ⟨d', hrun, i, hi, hbit, hbit'⟩ := h.strands halloc hpath name stack hs
    rw [(hsame d' hrun).inodeBit i hi, hbit] at hbit'
    contradiction
  · intro hs d' hrun
    rcases h.create_cases hpath type name stack with ⟨hrun', -⟩ | ⟨-, d₁, hrun'⟩ |
      ⟨p, i, name', htype, hp, hSp, hi, hbit, hnew, hrun'⟩
    · obtain ⟨-, rfl⟩ := Exec.ok_unique hrun' hrun
      exact .refl d
    · have hne := (Exec.ok_unique hrun' hrun).1
      contradiction
    · have hSi : ¬ S i := by
        intro hSi
        rw [halloc i hSi] at hbit
        contradiction
      obtain ⟨-, -, -, -, hdir, -⟩ := id hp
      obtain ⟨r, d₁, hlink, hr, -⟩ := linkDirectory_outcome h hi hSi hSp hdir name' hnew stack
      rw [hrun'] at hrun
      exact absurd ⟨htype, ⟨i, hi, hbit⟩, p, hp, hr.mp (Exec.ok_unique hlink hrun).1⟩ hs

theorem fullDisk_navigable (h : Navigable d S) :
    Navigable ((List.range 120).foldl Disk.setDataBit d) S := by
  obtain ⟨hinode, hdata, -, hbits⟩ := Disk.foldl_setDataBit d (List.range 120) (by simp)
  generalize (List.range 120).foldl Disk.setDataBit d = d' at hinode hdata hbits ⊢
  have hsame := fun i hi => hinode i (h.wf.lt i hi)
  have hentries : ∀ i, S i → d'.entries (d'.inode i) = d.entries (d.inode i) := by
    intro i hi
    apply Disk.entries_congr
    · rw [hsame i hi]
    · rw [hsame i hi]
    · exact hdata
  refine ⟨h.wf.of_same (fun i hi => ?_) fun i hi k hk hset => ?_, h.root, ?_, ?_⟩
  · rw [hsame i hi]
    exact ⟨rfl, rfl, rfl⟩
  · rw [hbits, h.wf.marked i hi k hk hset, Bool.or_true]
  · intro i hi hdir
    rw [hsame i hi] at hdir ⊢
    exact h.whole i hi hdir
  · intro i hi hdir e he
    rw [hsame i hi] at hdir
    rw [hentries i hi] at he
    exact h.target i hi hdir e he

theorem exists_full : ∃ d, Navigable d (· < 1) ∧ (∀ i < 1, d.inodeBit i = true) ∧
    Strands d pathA .directoryT := by
  obtain ⟨d, hboot⟩ := exists_booted
  have honly := hboot.rootOnly
  have hnav := fullDisk_navigable honly.tree.nav
  obtain ⟨hinode, hdata, hbit, hbits⟩ := Disk.foldl_setDataBit d (List.range 120) (by simp)
  generalize (List.range 120).foldl Disk.setDataBit d = d₁ at hnav hinode hdata hbit hbits
  have hdir : (d₁.inode 0).type = .directoryT := by rw [hinode 0 (by decide), honly.type]
  have hnew : d₁.next 0 [97] = none := by
    rw [next_congr (d := d) (by rw [hinode 0 (by decide)]) (Disk.entries_congr
      (by rw [hinode 0 (by decide)]) (by rw [hinode 0 (by decide)]) hdata), honly.next]
    decide
  have hroom : ¬ HasRoom d₁ 0 := by
    rintro ⟨b, hb, hfree, -⟩
    rw [hbits] at hfree
    simp [hb] at hfree
  have hfree : d₁.inodeBit 1 = false := by
    rw [hbit, honly.bit]
    rfl
  refine ⟨d₁, hnav, ?_, rfl, ⟨1, by decide, hfree⟩, 0, ⟨[], [97], by decide, rfl, hdir, hnew⟩, hroom⟩
  intro i hi
  rw [hbit, honly.bit]
  simp
  omega

def pathAA : CString := ⟨[47, 97, 47, 97], by decide⟩

/-- On the first disk `/a/a` has no parent and the call leaves everything; on the full one it takes
an inode for `/a`. -/
theorem create_atomic_first : ∃ d d' d₁, Booted d ∧
    fsCreate d pathAA .directoryT (Bytes.zero 59) (fun _ => Bytes.zero 64) = .ok (-1, d') ∧
    SameDisk d d' ∧ Navigable d₁ (· < 1) ∧
    ¬ ∀ d₂, fsCreate d₁ pathA .directoryT (Bytes.zero 59) (fun _ => Bytes.zero 64) = .ok (-1, d₂) →
      SameDisk d₁ d₂ := by
  obtain ⟨d, hboot⟩ := exists_booted
  obtain ⟨d₁, hnav, hbits, hstrands⟩ := exists_full
  have ht := hboot.rootOnly.tree
  have hno : ∀ p, ¬ NamesNew d pathAA p := by
    rintro p ⟨cs, c, hcs, hwalk, -⟩
    have hcomps : components pathAA.bytes = [[97]] ++ [[97]] := by decide
    obtain ⟨rfl, -⟩ := List.append_inj' (hcs.symm.trans hcomps) rfl
    have hnext : d.next 0 [97] = none := (hboot.rootOnly.next [97]).trans (if_neg (by decide))
    rw [Walk.walk, hnext] at hwalk
    cases hwalk
  have hlegal : Legal pathAA := ⟨rfl, by decide, by decide⟩
  have hsame := (create_atomic_iff ht.nav (fun i hi => (ht.bits i (ht.nav.wf.lt i hi)).mpr hi)
    hlegal .directoryT (Bytes.zero 59) fun _ => Bytes.zero 64).mpr
      fun ⟨_, _, p, hp, _⟩ => hno p hp
  rcases ht.nav.create_cases hlegal .directoryT (Bytes.zero 59) (fun _ => Bytes.zero 64) with
    ⟨hrun, -⟩ | ⟨htype, -⟩ | ⟨p, _, _, -, hp, -⟩
  · refine ⟨d, d, d₁, hboot, hrun, hsame d hrun, hnav, ?_⟩
    rw [create_atomic_iff hnav hbits legal_pathA, not_not]
    exact hstrands
  · exact absurd rfl htype
  · exact absurd hp (hno p)

/-- With no data block left the inode of `/a` stays taken. -/
theorem create_not_atomic : ∃ d d', Navigable d (· < 1) ∧ (∀ i < 1, d.inodeBit i = true) ∧ Legal pathA ∧
    fsCreate d pathA .directoryT (Bytes.zero 59) (fun _ => Bytes.zero 64) = .ok (-1, d') ∧
    ¬ SameDisk d d' := by
  obtain ⟨d, hnav, halloc, hstrands⟩ := exists_full
  obtain ⟨d', hrun, i, hi, hclear, hset⟩ := hnav.strands halloc legal_pathA (Bytes.zero 59)
    (fun _ => Bytes.zero 64) hstrands
  refine ⟨d, d', hnav, halloc, legal_pathA, hrun, fun hsame => ?_⟩
  rw [hsame.inodeBit i hi, hclear] at hset
  contradiction

end PicoShell.Fs
