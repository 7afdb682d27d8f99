import PicoShell.Fs.CreateTree

namespace PicoShell.Fs

variable {d d' : Disk} {S : ℕ → Prop} {i j k p n : ℕ} {r : ℤ} {path : CString} {type : FileType}
  {name name' : NameBuf} {x : Inode} {es : List Dirent}

/-- The disk after some data bits were cleared: those of the blocks in `bs`. -/
structure Cleared (d d' : Disk) (bs : List Int32) : Prop where
  inode : ∀ j < 80, d'.inode j = d.inode j
  inodeBit : ∀ j, d'.inodeBit j = d.inodeBit j
  data : ∀ b, d'.data b = d.data b
  dataBit : ∀ b < 120, d'.dataBit b = true ↔ d.dataBit b = true ∧ ∀ a ∈ bs, a.toInt ≠ b

theorem Cleared.refl (d : Disk) : Cleared d d [] :=
  ⟨fun _ _ => rfl, fun _ => rfl, fun _ => rfl, by simp⟩

/-- The loop stops at the first unused pointer. -/
theorem freeBlocks_stop : ∀ (addrs : List Int32) (d : Disk), -1 ∈ addrs →
    (∀ a ∈ addrs.takeWhile (· ≠ -1), 0 ≤ a.toInt ∧ a.toInt < 120 ∧ d.dataBit a.toInt.toNat = true) →
    (addrs.takeWhile (· ≠ -1)).Nodup →
    ∃ d', freeBlocks d addrs = .ok (false, d') ∧ Cleared d d' (addrs.takeWhile (· ≠ -1)) := by
  intro addrs
  induction addrs with
  | nil => simp
  | cons a addrs ih =>
    intro d hmem htaken hdistinct
    by_cases ha : a = -1
    · subst ha
      have hstop : dataFree d (-1 : Int32).toInt = .ok none :=
        dataFree_out_of_range d (.inl (by decide))
      refine ⟨d, ?_, ?_⟩
      · simp only [freeBlocks, bind, Except.bind, hstop]
        rfl
      · rw [List.takeWhile_cons_of_neg (by simp)]
        exact Cleared.refl d
    · rw [List.takeWhile_cons_of_pos (by simpa using ha)] at htaken hdistinct ⊢
      obtain ⟨hnotin, hdistinct⟩ := List.nodup_cons.mp hdistinct
      obtain ⟨hlo, hhi, hbit⟩ := htaken a (by simp)
      obtain ⟨b, hb⟩ : ∃ b : ℕ, a.toInt = b := ⟨a.toInt.toNat, by omega⟩
      have hb120 : b < 120 := by omega
      rw [hb, Int.toNat_natCast] at hbit
      have hfree := dataFree_of_lt d hb120
      rw [hbit, if_pos rfl] at hfree
      have hclear := fun b' => Disk.dataBit_clearDataBit d b' hb120
      -- the blocks behind are others, so they are still marked
      obtain ⟨d', hrun, hcleared⟩ := ih (d.clearDataBit b) (by simpa [Ne.symm ha] using hmem) (by
        intro a' ha'
        obtain ⟨hlo', hhi', hbit'⟩ := htaken a' (List.mem_cons_of_mem _ ha')
        have hne : a'.toInt.toNat ≠ b := by
          intro he
          have heq : a' = a := Int32.toInt_inj.mp (by omega)
          exact hnotin (heq ▸ ha')
        refine ⟨hlo', hhi', ?_⟩
        rw [hclear, hbit']
        simpa using hne) hdistinct
      refine ⟨d', ?_, ?_, ?_, ?_, ?_⟩
      · simp only [freeBlocks, bind, Except.bind, hb, hfree]
        exact hrun
      · intro j hj
        rw [hcleared.inode j hj, Disk.inode_clearDataBit _ _ hj]
      · intro j
        rw [hcleared.inodeBit, Disk.inodeBit_clearDataBit]
      · intro b'
        rw [hcleared.data, Disk.data_clearDataBit]
      · intro b' hb'
        rw [hcleared.dataBit b' hb', hclear]
        simp only [Bool.and_eq_true, Bool.not_eq_true', decide_eq_false_iff_not, List.forall_mem_cons,
          hb, ne_eq, Nat.cast_inj]
        constructor
        · rintro ⟨⟨hne, hbit'⟩, hall⟩
          exact ⟨hbit', fun h => hne h.symm, hall⟩
        · rintro ⟨hbit', hne, hall⟩
          exact ⟨⟨fun h => hne h.symm, hbit'⟩, hall⟩

theorem takeWhile_eq_filter {α : Type*} (f : α → Bool) (l : List α)
    (h : l.Pairwise fun a b => f b = true → f a = true) : l.takeWhile f = l.filter f := by
  induction l with
  | nil => rfl
  | cons a l ih =>
    have h := List.pairwise_cons.mp h
    by_cases ha : f a = true
    · rw [List.takeWhile_cons_of_pos ha, List.filter_cons_of_pos ha, ih h.2]
    · rw [List.takeWhile_cons_of_neg ha, List.filter_cons_of_neg ha, eq_comm, List.filter_eq_nil_iff]
      exact fun b hb hfb => ha (h.1 b hb hfb)

/-- The pointers in front of the first unused one are all that are in use. -/
theorem takeWhile_addrs (hx : ∀ k < 12, x.addr k ≠ -1 ↔ 1024 * k < x.len) :
    (List.ofFn x.addrs).takeWhile (· ≠ -1) = (List.ofFn x.addrs).filter (· ≠ -1) := by
  apply takeWhile_eq_filter
  rw [List.pairwise_ofFn]
  intro k l hkl hl
  have hl' := Inode.addrs_eq_neg_one x l.isLt
  have hk' := Inode.addrs_eq_neg_one x k.isLt
  have := hx l l.isLt
  have := hx k k.isLt
  simp only [ne_eq, decide_eq_true_eq] at hl ⊢
  rw [hk']
  rw [hl'] at hl
  omega

theorem mem_takeWhile_addrs (hx : ∀ k < 12, x.addr k ≠ -1 ↔ 1024 * k < x.len) {a : Int32} :
    a ∈ (List.ofFn x.addrs).takeWhile (· ≠ -1) ↔ ∃ k < 12, x.addr k ≠ -1 ∧ a.toInt = x.addr k := by
  rw [takeWhile_addrs hx, List.mem_filter, List.mem_ofFn]
  constructor
  · rintro ⟨⟨k, rfl⟩, ha⟩
    refine ⟨k, k.isLt, ?_, ?_⟩
    · rw [ne_eq, ← Inode.addrs_eq_neg_one x k.isLt]
      simpa using ha
    · rw [Inode.addr_of_lt x k.isLt]
  · rintro ⟨k, hk, hne, ha⟩
    rw [Inode.addr_of_lt x hk] at ha
    have hak := Int32.toInt_inj.mp ha
    subst hak
    refine ⟨⟨_, rfl⟩, ?_⟩
    rw [ne_eq, ← Inode.addrs_eq_neg_one x hk] at hne
    simpa using hne

/-- Freeing the blocks of a file with an unused pointer clears their bits and fails. -/
theorem freeBlocks_inode (hd : WellFormedOn d S) (hj : S j) (hlen : (d.inode j).len ≤ 11264) :
    ∃ d', freeBlocks d (List.ofFn (d.inode j).addrs) = .ok (false, d') ∧
      (∀ i < 80, d'.inode i = d.inode i) ∧ (∀ i, d'.inodeBit i = d.inodeBit i) ∧
      (∀ b, d'.data b = d.data b) ∧
      ∀ b < 120, d'.dataBit b = true ↔
        d.dataBit b = true ∧ ∀ k < 12, (d.inode j).addr k ≠ b := by
  have hx := hd.addrs j hj
  -- A file of at most eleven blocks has an unused pointer, where the loop stops.
  have hlast : (d.inode j).addr 11 = -1 := by
    by_contra hne
    have := (hx 11 (by decide)).mp hne
    omega
  have hmem : -1 ∈ List.ofFn (d.inode j).addrs := by
    rw [List.mem_ofFn]
    exact ⟨⟨11, by decide⟩, (Inode.addrs_eq_neg_one _ (by decide)).mpr hlast⟩
  have hdistinct : ((List.ofFn (d.inode j).addrs).takeWhile (· ≠ -1)).Nodup := by
    rw [takeWhile_addrs hx]
    refine List.pairwise_filter.mpr (List.pairwise_ofFn.mpr ?_)
    intro k l hkl hk _ heq
    have hk' := Inode.addrs_eq_neg_one (d.inode j) k.isLt
    have haddr : (d.inode j).addr k = (d.inode j).addr l := by
      rw [Inode.addr_of_lt _ k.isLt, Inode.addr_of_lt _ l.isLt, heq]
    have := (hd.unshared j j hj hj k k.isLt l l.isLt (by rw [ne_eq, ← hk']; simpa using hk) haddr).2
    omega
  obtain ⟨d', hrun, hcleared⟩ := freeBlocks_stop _ d hmem (by
    intro a ha
    obtain ⟨k, hk, hne, hak⟩ := (mem_takeWhile_addrs hx).mp ha
    have hr := hd.range j hj k hk hne
    rw [hak]
    exact ⟨hr.1, hr.2, hd.marked j hj k hk hne⟩) hdistinct
  refine ⟨d', hrun, hcleared.inode, hcleared.inodeBit, hcleared.data, ?_⟩
  intro b hb
  rw [hcleared.dataBit b hb]
  apply and_congr_right
  intro _
  constructor
  · intro hall k hk heq
    refine hall (Int32.ofInt b) ((mem_takeWhile_addrs hx).mpr ⟨k, hk, by omega, ?_⟩) ?_
    · rw [Int32.toInt_ofInt_of_le (by omega) (by omega), heq]
    · exact Int32.toInt_ofInt_of_le (by omega) (by omega)
  · intro hall a ha heq
    obtain ⟨k, hk, -, hak⟩ := (mem_takeWhile_addrs hx).mp ha
    exact hall k hk (hak.symm.trans heq)

/-- The call names an existing entry, other than `.` and `..`, that is a file or an empty
directory: `fs_delete` goes on to remove it. -/
def Deletes (d : Disk) (path : CString) (type : FileType) (name : NameBuf) : Prop :=
  path.bytes ≠ [slash] ∧ (type = .fileT ∨ type = .directoryT) ∧
    ∃ dirInode name' inum inode,
      pathLookupParent d path name = .ok (some dirInode, name') ∧
      dirLookup d (uintOf dirInode.inum.toInt) name'.cstr = .ok inum ∧ inum ≠ -1 ∧
      inodeRead d inum = some inode ∧
      (inode.type = .directoryT → dirEmpty d (uintOf inode.inum.toInt) = .ok 1) ∧
      ¬ IsDot name'.cstr

theorem Tree.dirEmpty (ht : Tree d S n) (hi : S i) (hdir : (d.inode i).type = .directoryT) :
    dirEmpty d i = .ok 1 ↔ ∀ e ∈ d.entries (d.inode i), e.valid = true → IsDot e.key := by
  rw [dirEmpty_eq (ht.nav.wf.ok hi).legible (ht.nav.wf.lt i hi) hdir (ht.nav.whole i hi hdir)]
  unfold IsDot
  split_ifs with hany
  · simp only [Except.ok.injEq, zero_ne_one, false_iff]
    obtain ⟨e, he, hhit⟩ := List.any_eq_true.mp hany
    simp only [Bool.and_eq_true, bne_iff_ne] at hhit
    exact fun hall => (hall e he hhit.1.1).elim hhit.1.2 hhit.2
  · simp only [true_iff]
    intro e he hv
    by_contra hno
    push Not at hno
    refine hany (List.any_eq_true.mpr ⟨e, he, ?_⟩)
    simp [hv, hno.1, hno.2]

theorem Tree.deletes_iff (ht : Tree d S n) (hp : S p) (hroot : path.bytes ≠ [slash])
    (htype : ¬ (type ≠ .fileT ∧ type ≠ .directoryT))
    (hparent : pathLookupParent d path name = .ok (some (d.inode p), name')) :
    Deletes d path type name ↔ ∃ j, d.next p name'.cstr = some j ∧
      (∀ e ∈ d.entries (d.inode j), e.valid = true → IsDot e.key) ∧ ¬ IsDot name'.cstr := by
  have hlookup := ht.nav.dirLookup hp name'.cstr
  constructor
  · rintro ⟨-, -, y, name'', inum, inode, hparent', hlookup', hne, hread, hempty, hdot⟩
    rw [hparent] at hparent'
    obtain ⟨hy, rfl⟩ := Exec.ok_inj hparent'
    obtain rfl := Option.some.inj hy
    rw [ht.nav.wf.uintOf_inum hp, hlookup, Except.ok.injEq] at hlookup'
    cases hnext : d.next p name'.cstr with
    | none =>
      rw [hnext] at hlookup'
      exact absurd hlookup'.symm hne
    | some j =>
      rw [hnext] at hlookup'
      have hj := ht.nav.closed p _ j hp hnext
      have hjdir := ht.kind p _ j hp hnext
      rw [← hlookup', inodeRead_of_lt d (ht.nav.wf.lt j hj), Option.some.injEq] at hread
      subst hread
      refine ⟨j, rfl, ?_, hdot⟩
      have := hempty hjdir
      rwa [ht.nav.wf.uintOf_inum hj, ht.dirEmpty hj hjdir] at this
  · rintro ⟨j, hnext, hempty, hdot⟩
    have hj := ht.nav.closed p _ j hp hnext
    refine ⟨hroot, ?_, d.inode p, name', j, d.inode j, hparent, ?_, by omega,
      inodeRead_of_lt d (ht.nav.wf.lt j hj), ?_, hdot⟩
    · by_contra hno
      push Not at hno
      exact htype hno
    · rw [ht.nav.wf.uintOf_inum hp, hlookup, hnext]
    · intro hjdir
      rwa [ht.nav.wf.uintOf_inum hj, ht.dirEmpty hj hjdir]

/-- `fs_delete` refuses and leaves the disk alone, or overruns its name buffer during the parent
lookup, or goes on to remove the entry of an empty directory. -/
theorem fsDelete_cases (ht : Tree d S n) (path : CString) (type : FileType) (name : NameBuf) :
    (¬ Deletes d path type name ∧ fsDelete d path type name = .ok (-1, d)) ∨
    (∃ f, pathLookupParent d path name = .error f ∧ fsDelete d path type name = .error f) ∨
    (Deletes d path type name ∧
      ∃ p name' j d₁, pathLookupParent d path name = .ok (some (d.inode p), name') ∧ S p ∧
        (d.inode p).type = .directoryT ∧ d.next p name'.cstr = some j ∧ S j ∧
        (d.inode j).type = .directoryT ∧ (∀ e ∈ d.entries (d.inode j), e.valid = true → IsDot e.key) ∧
        ¬ IsDot name'.cstr ∧ dirRemove d p name'.cstr = .ok (0, d₁) ∧
        fsDelete d path type name = releaseInode d₁ (d.inode p) (d.inode j)) := by
  rw [fsDelete]
  by_cases hroot : path.bytes = [slash]
  · exact .inl ⟨fun hdel => hdel.1 hroot, if_pos hroot⟩
  rw [if_neg hroot]
  by_cases htype : type ≠ .fileT ∧ type ≠ .directoryT
  · exact .inl ⟨fun hdel => hdel.2.1.elim htype.1 htype.2, if_pos htype⟩
  rw [if_neg htype]
  simp only [bind, Except.bind]
  cases hparent : pathLookupParent d path name with
  | error f => exact .inr (.inl ⟨f, rfl, rfl⟩)
  | ok res =>
  obtain ⟨o, name'⟩ := res
  cases o with
  | none =>
    refine .inl ⟨?_, rfl⟩
    rintro ⟨-, -, y, name'', -, -, hparent', -⟩
    rw [hparent] at hparent'
    cases hparent'
  | some x =>
  obtain ⟨p, hp, hdir, rfl, -⟩ := ht.lookupParent hparent
  have hdel := ht.deletes_iff hp hroot htype hparent
  have hread : ∀ j, S j → inodeRead d (j : ℤ) = some (d.inode j) :=
    fun j hj => inodeRead_of_lt d (ht.nav.wf.lt j hj)
  simp only [ht.nav.wf.uintOf_inum hp, ht.nav.dirLookup hp]
  cases hnext : d.next p name'.cstr with
  | none =>
    simp only [↓reduceIte]
    refine .inl ⟨?_, rfl⟩
    rw [hdel]
    rintro ⟨j, hj, -⟩
    rw [hnext] at hj
    contradiction
  | some j =>
  have hj := ht.nav.closed p _ j hp hnext
  have hjdir := ht.kind p _ j hp hnext
  have hne : (j : ℤ) ≠ -1 := by omega
  simp only [hne, hread j hj, hjdir, ht.nav.wf.uintOf_inum hj, ↓reduceIte]
  -- `dir_empty` counts the valid entries that are no dot entries.
  by_cases hempty : ∀ e ∈ d.entries (d.inode j), e.valid = true → IsDot e.key
  · rw [(ht.dirEmpty hj hjdir).mpr hempty]
    simp only [ne_eq, not_true_eq_false, ↓reduceIte]
    rcases dirRemove_cases ht.nav.wf hp hdir (ht.nav.whole p hp hdir) name'.cstr with
      ⟨hdot, hrun⟩ | ⟨-, hall, -⟩ | ⟨hdot, k, d₁, -, -, -, hrun⟩
    · rw [hrun]
      refine .inl ⟨?_, rfl⟩
      rw [hdel]
      rintro ⟨-, -, -, hno⟩
      exact hno hdot
    -- The lookup has just found the name, so some slot carries it.
    · obtain ⟨-, e, he, -, hkey, -⟩ := mem_of_next hnext
      exact absurd hkey (hall e he)
    · rw [hrun]
      exact .inr (.inr ⟨hdel.mpr ⟨j, hnext, hempty, hdot⟩, p, name', j, d₁, rfl, hp, hdir, hnext, hj,
        hjdir, hempty, hdot, hrun, rfl⟩)
  · refine .inl ⟨?_, ?_⟩
    · rw [hdel]
      rintro ⟨j', hj', hempty', -⟩
      rw [hnext, Option.some.injEq] at hj'
      subst hj'
      exact hempty hempty'
    · have hone := mt (ht.dirEmpty hj hjdir).mp hempty
      rw [dirEmpty_eq (ht.nav.wf.ok hj).legible (ht.nav.wf.lt j hj) hjdir (ht.nav.whole j hj hjdir)] at hone ⊢
      generalize (d.entries (d.inode j)).any _ = any at hone ⊢
      cases any with
      | true => rfl
      | false => exact absurd rfl hone

/-- Directory `j` was removed from slot `k` of directory `p`, and its blocks were freed. -/
structure Removed (d d' : Disk) (S : ℕ → Prop) (p j k : ℕ) : Prop where
  wf : WellFormedOn d' fun i => S i ∧ i ≠ j
  inode : ∀ i < 80, i ≠ p → d'.inode i = d.inode i
  parent : d'.inode p = { d.inode p with numLinks := (d.inode p).numLinks - 1 }
  inodeBit : ∀ i, d'.inodeBit i = d.inodeBit i
  dataBit : ∀ b < 120, d'.dataBit b = true →
    (∃ i, S i ∧ ∃ l < 12, (d.inode i).addr l = b) ∧ ∀ l < 12, (d.inode j).addr l ≠ b
  other : ∀ i, S i → i ≠ p → d'.entries (d'.inode i) = d.entries (d.inode i)
  slots : d'.entries (d'.inode p) = (d.entries (d.inode p)).set k Dirent.hole

/-- The rest of `fs_delete` once the entry of an empty directory is gone: it always fails. -/
theorem releaseInode_spec {d₁ : Disk} (ht : Tree d S n) (hp : S p) (hj : S j)
    (hjdir : (d.inode j).type = .directoryT) (hpj : p ≠ j) (hin : 64 * k + 64 ≤ (d.inode p).len)
    (hw : Written d d₁ S p (64 * k) 64 (Bytes.zero 64).get) :
    ∃ d', releaseInode d₁ (d.inode p) (d.inode j) = .ok (-1, d') ∧ Removed d d' S p j k := by
  have hwf := ht.nav.wf
  have hp80 := hwf.lt p hp
  have hself := hw.inode_self hwf hp hin
  have hinum := hwf.inum p hp
  have hslots := ht.slots j hj
  have hle := ht.le
  unfold Disk.slots at hslots
  have hentries₁ := entries_written_set hw hin
  have hother₁ := fun i hi hip => entries_other (j := i) hw hwf hi hip
  have hbits₁ : ∀ b < 120, d₁.dataBit b = true → ∃ i, S i ∧ ∃ l < 12, (d.inode i).addr l = b := by
    intro b hb hbit
    rcases hw.fresh b hbit with hold | ⟨l, hl, hlb⟩
    · exact ht.budget.owned b hb hold
    · exact ⟨p, hp, l, hl, by rw [← hlb, hself]⟩
  -- the parent loses a link
  have hupdate := inodeUpdate_of_lt d₁ { d₁.inode p with numLinks := (d.inode p).numLinks - 1 } hp80
  have hwf₂ := hw.wellFormed.putLinks hp ((d.inode p).numLinks - 1)
  have hentries₂ := entries_putLinks (d := d₁) hp80 ((d.inode p).numLinks - 1)
  have hinode₂ := fun i => Disk.inode_putInode d₁ i
    { d₁.inode p with numLinks := (d.inode p).numLinks - 1 } hp80
  have hibit₂ := fun i => Disk.inodeBit_putInode d₁ i
    { d₁.inode p with numLinks := (d.inode p).numLinks - 1 } hp80
  have hdbit₂ := fun b => Disk.dataBit_putInode d₁ b
    { d₁.inode p with numLinks := (d.inode p).numLinks - 1 } hp80
  generalize d₁.putInode p { d₁.inode p with numLinks := (d.inode p).numLinks - 1 } = d₂
    at hupdate hwf₂ hentries₂ hinode₂ hibit₂ hdbit₂
  have hold₂ : ∀ i < 80, i ≠ p → d₂.inode i = d.inode i := by
    intro i hi hip
    rw [hinode₂, if_neg hip, hw.inode i hi hip]
  have hj₂ := hold₂ j (hwf.lt j hj) (Ne.symm hpj)
  -- the blocks of the directory are freed
  obtain ⟨d₃, hfree, hinode₃, hibit₃, hdata₃, hdbit₃⟩ :=
    freeBlocks_inode hwf₂ hj (by rw [hj₂]; omega)
  rw [hj₂] at hfree hdbit₃
  refine ⟨d₃, ?_, ?_, ?_, ?_, ?_, ?_, ?_, ?_⟩
  · rw [hself] at hupdate
    simp only [releaseInode, hjdir, ↓reduceIte, hinum, hupdate, bind, Except.bind, hfree]
    rfl
  · have hsmall := hwf₂.mono (T := fun i => S i ∧ i ≠ j) fun i hi => hi.1
    apply hsmall.of_same
    · rintro i ⟨hi, -⟩
      rw [hinode₃ i (hwf.lt i hi)]
      exact ⟨rfl, rfl, rfl⟩
    · rintro i ⟨hi, hij⟩ l hl hset
      have hr := hwf₂.range i hi l hl hset
      have hr' : (d₂.inode i).addr l < 120 := hr.2
      rw [hdbit₃ _ (by omega)]
      refine ⟨hwf₂.marked i hi l hl hset, ?_⟩
      intro m hm heq
      have hshared : (d₂.inode i).addr l = (d₂.inode j).addr m := by
        rw [hj₂]
        omega
      exact hij (hwf₂.unshared i j hi hj l hl m hm hset hshared).1
  · intro i hi hip
    rw [hinode₃ i hi, hold₂ i hi hip]
  · rw [hinode₃ p hp80, hinode₂, if_pos rfl, hself]
  · intro i
    rw [hibit₃, hibit₂, hw.inodeBit]
  · intro b hb hbit
    obtain ⟨hbit₂, hnot⟩ := (hdbit₃ b hb).mp hbit
    rw [hdbit₂] at hbit₂
    exact ⟨hbits₁ b hb hbit₂, hnot⟩
  · intro i hi hip
    have hi80 := hwf.lt i hi
    rw [Disk.entries_congr (by rw [hinode₃ i hi80]) (by rw [hinode₃ i hi80]) hdata₃, hentries₂ i,
      hother₁ i hi hip]
  · rw [Disk.entries_congr (by rw [hinode₃ p hp80]) (by rw [hinode₃ p hp80]) hdata₃, hentries₂ p,
      hentries₁]
    rfl

namespace Removed

variable {x : Dirent}

theorem type_eq (h : Removed d d' S p j k) (hi : i < 80) : (d'.inode i).type = (d.inode i).type := by
  by_cases hip : i = p
  · rw [hip, h.parent]
  · rw [h.inode i hi hip]

theorem len (h : Removed d d' S p j k) (hi : i < 80) : (d'.inode i).len = (d.inode i).len := by
  by_cases hip : i = p
  · rw [hip, h.parent]
    rfl
  · rw [h.inode i hi hip]

theorem next (h : Removed d d' S p j k) (ht : Tree d S n) (hp : S p)
    (hdir : (d.inode p).type = .directoryT) (hx : (d.entries (d.inode p))[k]? = some x)
    (hv : x.valid = true) (hi : S i) (c : List UInt8) :
    d'.next i c = if i = p ∧ c = x.key then none else d.next i c := by
  have hi80 := ht.nav.wf.lt i hi
  by_cases hip : i = p
  · subst hip
    have hnames := ht.names i hi hdir
    have hdir' : (d'.inode i).type = .directoryT := by rw [h.type_eq hi80, hdir]
    by_cases hc : c = x.key
    · rw [if_pos ⟨rfl, hc⟩, next_eq_none hdir', h.slots]
      intro e he hev hek
      rcases mem_set_hole he with rfl | ⟨l, hlk, hl⟩
      · simp at hev
      · exact hlk (slot_unique hnames hl hx hev hv (hek.trans hc))
    · rw [if_neg (fun h => hc h.2), Disk.next, if_pos hdir', h.slots, Disk.next, if_pos hdir,
        findEntry_set_ne hx]
      · exact fun _ => Ne.symm hc
      · exact fun hhole => absurd hhole (by simp)
  · rw [if_neg (fun h => hip h.1)]
    exact next_congr (h.type_eq hi80) (h.other i hi hip)

/-- Removing an empty directory keeps the tree of the others. -/
theorem tree (h : Removed d d' S p j k) (ht : Tree d S n) (hp : S p)
    (hdir : (d.inode p).type = .directoryT) (hx : (d.entries (d.inode p))[k]? = some x)
    (hv : x.valid = true) (hdot : ¬ IsDot x.key) (hnext : d.next p x.key = some j)
    (hempty : ∀ e ∈ d.entries (d.inode j), e.valid = true → IsDot e.key) :
    Tree d' (fun i => S i ∧ i ≠ j) n := by
  have hwf := ht.nav.wf
  have hstep := fun i hi c => h.next (i := i) ht hp hdir hx hv hi c
  have htype := fun i hi => h.type_eq (i := i) (hwf.lt i hi)
  have hlen := fun i hi => h.len (i := i) (hwf.lt i hi)
  have hgraph : Walk.DotTree d'.next (fun i => (d'.inode i).type = .directoryT) (fun i => S i ∧ i ≠ j) 0
      dotName dotDotName := by
    apply ht.graph.erase_leaf hp hdot hnext fun c hc => next_of_empty hempty hc
    · rw [hstep p hp, if_pos ⟨rfl, rfl⟩]
    · intro i c hi hno
      rw [hstep i hi, if_neg hno]
    · intro i hi
      rw [htype i hi]
  have hmem : ∀ i, S i → ∀ e ∈ d'.entries (d'.inode i), e.valid = true →
      e ∈ d.entries (d.inode i) := by
    intro i hi e he hev
    by_cases hip : i = p
    · rw [hip, h.slots] at he
      rcases mem_set_hole he with rfl | ⟨l, -, hl⟩
      · simp at hev
      · rw [hip]
        exact List.mem_of_getElem? hl
    · rwa [h.other i hi hip] at he
  have hnames : ∀ i, S i → (d.inode i).type = .directoryT →
      NamesDistinct (d'.entries (d'.inode i)) := by
    intro i hi hidir
    have hi' := ht.names i hi hidir
    by_cases hip : i = p
    · rw [hip] at hi' ⊢
      rw [h.slots]
      exact hi'.set fun hhole => absurd hhole (by simp)
    · rwa [h.other i hi hip]
  apply Tree.of_graph ⟨h.wf, hgraph.root_mem, ?_, ?_⟩ ht.le ?_ ⟨?_, ?_, ?_⟩ ?_ ?_ hgraph
  · rintro i ⟨hi, -⟩ hidir
    rw [htype i hi] at hidir
    rw [hlen i hi]
    exact ht.nav.whole i hi hidir
  · -- a valid entry is an edge that is left
    rintro i ⟨hi, hij⟩ hidir e he hev
    have hidir' := hidir
    rw [htype i hi] at hidir
    obtain ⟨m, hm, -⟩ := ht.nav.target i hi hidir e (hmem i hi e he hev) hev
    refine ⟨m, hm, hgraph.closed i e.key m ⟨hi, hij⟩ ?_⟩
    rw [next_of_mem hidir' (hnames i hi hidir) he hev, hm, Int.toNat_natCast]
  · intro i hi
    rw [h.inodeBit, ht.bits i hi]
  · exact fun i hi => ht.budget.lt i hi.1
  · intro b hb hbit
    obtain ⟨⟨i, hi, l, hl, hlb⟩, hnot⟩ := h.dataBit b hb hbit
    have hij : i ≠ j := by
      rintro rfl
      exact hnot l hl hlb
    refine ⟨i, ⟨hi, hij⟩, l, hl, ?_⟩
    by_cases hip : i = p
    · rw [hip, h.parent, ← hip]
      exact hlb
    · rw [h.inode i (hwf.lt i hi) hip, hlb]
  · have hsame : ∀ i ∈ Finset.range n, d'.slots i = d.slots i := by
      intro i hi
      have hi := Finset.mem_range.mp hi
      have hle := ht.le
      rw [Disk.slots, h.len (by omega), ← Disk.slots]
    rw [Finset.sum_congr rfl hsame]
    exact ht.budget.slots
  · rintro i ⟨hi, -⟩
    rw [Disk.slots, hlen i hi]
    exact ht.slots i hi
  · rintro i ⟨hi, -⟩ hidir
    rw [htype i hi] at hidir
    exact hnames i hi hidir

end Removed

end PicoShell.Fs
