import PicoShell.Fs.Boot

namespace PicoShell.Fs

variable {d d' : Disk} {S : ℕ → Prop} {i j p n : ℕ} {r : ℤ} {path : CString} {type : FileType}
  {name name' : NameBuf} {stack : ℕ → Bytes 64} {x : Inode}

/-- A parent lookup that succeeds yields a live directory, the root for a path of slashes. -/
theorem Tree.lookupParent (ht : Tree d S n)
    (h : pathLookupParent d path name = .ok (some x, name')) :
    ∃ p, S p ∧ (d.inode p).type = .directoryT ∧ x = d.inode p ∧
      ((components path.bytes = [] ∧ p = 0 ∧ name' = name) ∨
        ∃ cs c, components path.bytes = cs ++ [c] ∧ Walk.walk d.next 0 cs = some p ∧
          name'.cstr = c) := by
  rw [pathLookupParent, ht.nav.resolve_eq] at h
  split_ifs at h with habs
  · have hz : ∀ c ∈ components path.bytes, (0 : UInt8) ∉ c :=
      fun c hc hz => path.noZero ((mem_components hc).2 0 hz)
    rcases follow_parent_some hz h with ⟨hnil, hx, hn⟩ | ⟨cs, c, p, hcs, hw, hdir, hx, hn⟩
    · exact ⟨0, ht.nav.root, ht.rootType, hx, .inl ⟨hnil, rfl, hn⟩⟩
    · exact ⟨p, ht.nav.closed.walk ht.nav.root hw, hdir, hx, .inr ⟨cs, c, hcs, hw, hn⟩⟩
  · cases h

/-- The least free inode is the first one never taken. -/
theorem Tree.inodeAlloc (ht : Tree d S n) (x : Inode) :
    (n = 80 ∧ inodeAlloc d x = .ok (-1, d, x)) ∨
    (n < 80 ∧ inodeAlloc d x = .ok (0, d.takeInode x n, { x with inum := Int32.ofNat n })) := by
  have hle := ht.le
  rcases inodeAlloc_cases d x with ⟨hfull, hrun⟩ | ⟨i, hi, hfree, hleast, hrun⟩
  · refine .inl ⟨?_, hrun⟩
    by_contra hne
    have := (ht.bits n (by omega)).mp (hfull n (by omega))
    omega
  · have hge : ¬ i < n := by
      intro hlt
      rw [(ht.bits i hi).mpr hlt] at hfree
      contradiction
    have hin : i = n := by
      by_contra hne
      have := (ht.bits n (by omega)).mp (hleast n (by omega))
      omega
    subst hin
    exact .inr ⟨hi, hrun⟩

/-- The call makes an inode: it is for a new name in a live directory, and an inode is free. -/
def Makes (d : Disk) (path : CString) (type : FileType) (name : NameBuf) : Prop :=
  (type = .fileT ∨ type = .directoryT) ∧ (∃ i < 80, d.inodeBit i = false) ∧
    ∃ dirInode name', pathLookupParent d path name = .ok (some dirInode, name') ∧
      dirLookup d (uintOf dirInode.inum.toInt) name'.cstr = .ok (-1)

/-- `fs_create` refuses and leaves the disk alone, or overruns its name buffer during the parent
lookup, or makes an inode for a new name of a live directory. -/
theorem fsCreate_cases (ht : Tree d S n) (path : CString) (type : FileType) (name : NameBuf)
    (stack : ℕ → Bytes 64) :
    (¬ Makes d path type name ∧ fsCreate d path type name stack = .ok (-1, d)) ∨
    (∃ f, pathLookupParent d path name = .error f ∧
      fsCreate d path type name stack = .error f) ∨
    (Makes d path type name ∧
      ∃ p name', pathLookupParent d path name = .ok (some (d.inode p), name') ∧ S p ∧
        (d.inode p).type = .directoryT ∧ d.next p name'.cstr = none ∧ n < 80 ∧
        ((type = .fileT ∧ fsCreate d path type name stack =
            .ok (0, d.takeInode (freshInode .fileT 1) n)) ∨
          (type = .directoryT ∧ fsCreate d path type name stack =
            linkDirectory (d.takeInode (freshInode .directoryT 1) n) (d.inode p)
              { freshInode .directoryT 1 with inum := Int32.ofNat n } name' stack))) := by
  rw [fsCreate]
  by_cases htype : type ≠ .fileT ∧ type ≠ .directoryT
  · exact .inl ⟨fun h => h.1.elim htype.1 htype.2, if_pos htype⟩
  rw [if_neg htype]
  simp only [bind, Except.bind]
  cases hparent : pathLookupParent d path name with
  | error f => exact .inr (.inl ⟨f, rfl, rfl⟩)
  | ok res =>
  obtain ⟨o, name'⟩ := res
  cases o with
  | none =>
    refine .inl ⟨?_, rfl⟩
    rintro ⟨-, -, z, name₁, hparent', -⟩
    rw [hparent] at hparent'
    cases hparent'
  | some x =>
  have hmakes : Makes d path type name → dirLookup d (uintOf x.inum.toInt) name'.cstr = .ok (-1) := by
    rintro ⟨-, -, y, name'', hparent', hnew⟩
    obtain ⟨hy, rfl⟩ := Exec.ok_unique hparent hparent'
    obtain rfl := Option.some.inj hy
    exact hnew
  obtain ⟨p, hp, hdir, rfl, -⟩ := ht.lookupParent hparent
  have hlookup := ht.nav.dirLookup hp name'.cstr
  simp only [ht.nav.wf.uintOf_inum hp, hlookup]
  cases hnext : d.next p name'.cstr with
  | some j =>
    have hne : (j : ℤ) ≠ -1 := by omega
    simp only [ne_eq, hne, not_false_eq_true, ↓reduceIte]
    refine .inl ⟨fun h => ?_, rfl⟩
    have hnew := hmakes h
    rw [ht.nav.wf.uintOf_inum hp, hlookup, hnext, Except.ok.injEq] at hnew
    exact hne hnew
  | none =>
  simp only [ne_eq, not_true_eq_false, ↓reduceIte]
  -- In a tree all inodes below `n` are taken, so the table is full just when `n` is `80`.
  rcases ht.inodeAlloc (freshInode type 1) with ⟨hfull, halloc⟩ | ⟨hn, halloc⟩
  · simp only [halloc, ↓reduceIte]
    refine .inl ⟨?_, rfl⟩
    rintro ⟨-, ⟨i, hi, hfree⟩, -⟩
    rw [(ht.bits i hi).mpr (by omega)] at hfree
    contradiction
  · have hkind : type = .fileT ∨ type = .directoryT := by
      by_contra hno
      push Not at hno
      exact htype hno
    have hfree : d.inodeBit n = false := by
      by_contra hbit
      exact absurd ((ht.bits n hn).mp (by simpa using hbit)) (lt_irrefl n)
    refine .inr (.inr ⟨⟨hkind, ⟨n, hn, hfree⟩, d.inode p, name', hparent, ?_⟩, p, name', rfl, hp, hdir,
      hnext, hn, ?_⟩)
    · rw [ht.nav.wf.uintOf_inum hp, hlookup, hnext]
    · simp only [halloc]
      rcases hkind with rfl | rfl
      · exact .inl ⟨rfl, rfl⟩
      · exact .inr ⟨rfl, rfl⟩

/-- An absolute path with at least one component, all of a length that fits the name buffer. -/
structure Legal (path : CString) : Prop where
  absolute : path.bytes.head? = some slash
  nonempty : components path.bytes ≠ []
  short : ∀ c ∈ components path.bytes, c.length ≤ 58

/-- On a legal path the parent lookup walks along all components but the last. -/
theorem Navigable.lookupParent_legal (h : Navigable d S) (hpath : Legal path) (name : NameBuf) :
    ∃ cs c name', components path.bytes = cs ++ [c] ∧
      pathLookupParent d path name = .ok ((Walk.walk d.next 0 cs).bind fun p =>
        if (d.inode p).type = .directoryT then some (d.inode p) else none, name') ∧
      (Walk.walk d.next 0 cs ≠ none → name'.cstr = c) := by
  obtain ⟨cs, c, hcs⟩ : ∃ cs c, components path.bytes = cs ++ [c] :=
    ⟨_, _, (List.dropLast_append_getLast hpath.nonempty).symm⟩
  have hshort : ∀ b ∈ cs ++ [c], b.length < 59 := fun b hb => by
    have := hpath.short b (by rwa [hcs])
    omega
  have hz : (0 : UInt8) ∉ c := fun hz =>
    path.noZero ((mem_components (c := c) (by simp [hcs])).2 0 hz)
  obtain ⟨name', hrun, hkey⟩ := follow_parent d 0 name hshort hz
  refine ⟨cs, c, name', hcs, ?_, hkey⟩
  rw [pathLookupParent, h.resolve_eq, if_pos hpath.absolute, hcs, hrun]

/-- On a legal path the lookup is the walk along the components. -/
theorem Tree.lookup_legal (ht : Tree d S n) (hpath : Legal path) (name : NameBuf) :
    pathLookup d path name = .ok ((Walk.walk d.next 0 (components path.bytes)).map d.inode) := by
  have hshort : ∀ c ∈ components path.bytes, c.length < 59 := fun c hc => by
    have := hpath.short c hc
    omega
  obtain ⟨name', hrun⟩ := follow_walk d 0 name hshort
  rw [pathLookup, ht.nav.resolve_eq, if_pos hpath.absolute, hrun]
  rfl

/-- A lookup of any path that succeeds is a walk from the root, and only depends on it. -/
theorem Tree.lookup_some (ht : Tree d S n) (h : pathLookup d path name = .ok (some x)) :
    ∃ j, Walk.walk d.next 0 (components path.bytes) = some j ∧ S j ∧ x = d.inode j ∧
      ∀ d' S' n', Tree d' S' n' → Walk.walk d'.next 0 (components path.bytes) = some j →
        pathLookup d' path name = .ok (some (d'.inode j)) := by
  rw [pathLookup, ht.nav.resolve_eq] at h
  by_cases habs : path.bytes.head? = some slash
  · rw [if_pos habs] at h
    cases hrun : follow d false 0 (components path.bytes) name with
    | error f =>
      rw [hrun] at h
      cases h
    | ok res =>
      obtain ⟨o, name'⟩ := res
      rw [hrun] at h
      obtain rfl : o = some x := Except.ok.inj h
      obtain ⟨hshort, j, hw, hx⟩ := follow_some hrun
      refine ⟨j, hw, ht.nav.closed.walk ht.nav.root hw, hx, ?_⟩
      intro d' S' n' ht' hw'
      obtain ⟨name'', hrun'⟩ := follow_walk d' 0 name hshort
      rw [pathLookup, ht'.nav.resolve_eq, if_pos habs, hrun', hw']
      rfl
  · rw [if_neg habs] at h
    cases h

/-- Taking an inode leaves the old ones and their entries alone. -/
theorem takeInode_other (hd : WellFormedOn d S) (x : Inode) (hn : n < 80) (hnew : ¬ S n) (hj : S j) :
    (d.takeInode x n).inode j = d.inode j ∧
      (d.takeInode x n).entries ((d.takeInode x n).inode j) = d.entries (d.inode j) := by
  have hinode : (d.takeInode x n).inode j = d.inode j := by
    rw [Disk.inode_takeInode _ _ hn (hd.lt j hj), if_neg (by rintro rfl; exact hnew hj)]
  refine ⟨hinode, ?_⟩
  apply Disk.entries_congr
  · rw [hinode]
  · rw [hinode]
  · exact fun b => Disk.data_takeInode _ _ _ hn

/-- An inode that is not a directory changes nothing in the tree. -/
theorem Tree.takeFile (ht : Tree d S n) (hn : n < 80) :
    Tree (d.takeInode (freshInode .fileT 1) n) (fun j => S j ∨ j = n) (n + 1) := by
  have hblank : (freshInode .fileT 1).Blank := ⟨rfl, fun _ => rfl⟩
  have hSn : ¬ S n := fun h => absurd (ht.budget.lt n h) (lt_irrefl n)
  have hwf := ht.nav.wf
  have hother := fun j hj => takeInode_other (j := j) hwf (freshInode .fileT 1) hn hSn hj
  have hself := Disk.inode_takeInode d (freshInode .fileT 1) hn hn
  rw [if_pos rfl] at hself
  have hbit := fun j => Disk.inodeBit_takeInode d (freshInode .fileT 1) j hn
  have hwf' := hwf.takeInode hblank hn
  have hb' := ht.budget.takeInode hwf hblank hn
  generalize d.takeInode (freshInode .fileT 1) n = d' at hwf' hb' hother hself hbit ⊢
  have hfile : (d'.inode n).type ≠ .directoryT := by
    rw [hself]
    show FileType.fileT ≠ FileType.directoryT
    decide
  have hlen : (d'.inode n).len = 0 := by
    rw [hself]
    rfl
  apply Tree.of_graph ⟨hwf', .inl ht.nav.root, ?_, ?_⟩ hn ?_ (hb'.mono (by omega)) ?_ ?_
  · -- the edges
    apply ht.graph.insert_bare
    · intro j c hj
      exact next_congr (by rw [(hother j hj).1]) (hother j hj).2
    · exact fun c => if_neg hfile
    · intro j hj
      rw [(hother j hj).1]
    · exact hfile
  · rintro j (hj | rfl) hjdir
    · rw [(hother j hj).1] at hjdir ⊢
      exact ht.nav.whole j hj hjdir
    · exact absurd hjdir hfile
  · rintro j (hj | rfl) hjdir e he hv
    · rw [(hother j hj).2] at he
      rw [(hother j hj).1] at hjdir
      obtain ⟨k, hk, hSk⟩ := ht.nav.target j hj hjdir e he hv
      exact ⟨k, hk, .inl hSk⟩
    · exact absurd hjdir hfile
  · intro j hj
    rw [hbit, Bool.or_eq_true, decide_eq_true_iff, ht.bits j hj]
    omega
  · rintro j (hj | rfl)
    · have := ht.slots j hj
      rw [Disk.slots, (hother j hj).1, ← Disk.slots]
      omega
    · rw [Disk.slots, hlen]
      omega
  · rintro j (hj | rfl) hjdir
    · rw [(hother j hj).1] at hjdir
      rw [(hother j hj).2]
      exact ht.names j hj hjdir
    · exact absurd hjdir hfile

def subdirs (d : Disk) (i : ℕ) : ℕ :=
  (d.entries (d.inode i)).countP fun e => e.valid && !decide (IsDot e.key)

/-- The tree of all allocated inodes, without holes and with right link counts. -/
structure Grown (d : Disk) (n : ℕ) : Prop where
  tree : Tree d (· < n) n
  noHoles : NoHoles d (· < n)
  links : ∀ i < n, (d.inode i).type = .directoryT →
    (d.inode i).numLinks.toInt = (if i = 0 then 0 else 1) + (subdirs d i : ℤ)

theorem subdirs_le (ht : Tree d S n) (hi : S i) : subdirs d i ≤ n + 1 := by
  have hlen := List.countP_le_length (p := fun e : Dirent => e.valid && !decide (IsDot e.key))
    (l := d.entries (d.inode i))
  have hslots := ht.slots i hi
  rw [Disk.length_entries] at hlen
  unfold Disk.slots at hslots
  unfold subdirs
  omega

theorem lt_or_eq_iff (n : ℕ) : (fun j => j < n ∨ j = n) = (· < n + 1) := by
  funext j
  apply propext
  omega

theorem RootOnly.grown (h : RootOnly d) : Grown d 1 := by
  refine ⟨h.tree, h.noHoles, ?_⟩
  intro i hi _
  obtain rfl : i = 0 := by omega
  rw [h.numLinks, if_pos rfl, subdirs, h.entries, List.countP_cons, List.countP_cons, key_dot,
    key_dotDot]
  rfl

theorem Grown.takeFile (hg : Grown d n) (hn : n < 80) :
    Grown (d.takeInode (freshInode .fileT 1) n) (n + 1) ∧
      ∀ i c, i < n → (d.takeInode (freshInode .fileT 1) n).next i c = d.next i c := by
  have hother := fun j hj =>
    takeInode_other (j := j) hg.tree.nav.wf (freshInode .fileT 1) hn (lt_irrefl n) hj
  have hself := Disk.inode_takeInode d (freshInode .fileT 1) hn hn
  rw [if_pos rfl] at hself
  have htree := hg.tree.takeFile hn
  rw [lt_or_eq_iff] at htree
  generalize d.takeInode (freshInode .fileT 1) n = d' at hother hself htree ⊢
  have hold : ∀ j < n + 1, (d'.inode j).type = .directoryT → j < n := by
    intro j hj hjdir
    have hjn : j ≠ n := by
      rintro rfl
      rw [hself] at hjdir
      contradiction
    omega
  refine ⟨⟨htree, ?_, ?_⟩, ?_⟩
  · intro j hj hjdir
    have hjn := hold j hj hjdir
    rw [(hother j hjn).1] at hjdir
    rw [(hother j hjn).2]
    exact hg.noHoles j hjn hjdir
  · intro j hj hjdir
    have hjn := hold j hj hjdir
    rw [subdirs, (hother j hjn).2, ← subdirs]
    rw [(hother j hjn).1] at hjdir ⊢
    exact hg.links j hjn hjdir
  · intro i c hi
    exact next_congr (by rw [(hother i hi).1]) (hother i hi).2

/-- A directory: its parent has one more entry and one more link. -/
theorem Grown.made (hg : Grown d n) (hn : n < 80) (hp : p < n)
    (hdir : (d.inode p).type = .directoryT) (hnew : d.next p name'.cstr = none)
    (hmade : Made d d' (· < n) p n name') : Grown d' (n + 1) := by
  have ht := hg.tree
  have htree := hmade.tree ht hn hp hdir hnew
  rw [lt_or_eq_iff] at htree
  have hcases : ∀ j, j < n + 1 → j ≠ n → j < n := by omega
  refine ⟨htree, ?_, ?_⟩
  · intro j hj hjdir e he
    by_cases hjn : j = n
    · rw [hjn, hmade.childEntries] at he
      -- The new directory has its two dot entries.
      rcases List.mem_pair.mp he with rfl | rfl
      · rfl
      · rfl
    have hj := hcases j hj hjn
    rw [hmade.type hdir hj] at hjdir
    by_cases hjp : j = p
    · rw [hjp, hmade.parentEntries] at he
      rcases List.mem_append.mp he with he | he
      · exact hg.noHoles p hp hdir e he
      · rw [List.mem_singleton.mp he]
    · rw [(hmade.other j hj hjp).2] at he
      exact hg.noHoles j hj hjdir e he
  · intro j hj hjdir
    by_cases hjn : j = n
    · have hn0 : n ≠ 0 := by omega
      rw [hjn, hmade.childLinks, if_neg hn0, subdirs, hmade.childEntries, List.countP_cons,
        List.countP_cons, key_dot, key_dotDot]
      rfl
    have hj := hcases j hj hjn
    rw [hmade.type hdir hj] at hjdir
    have hlinks := hg.links j hj hjdir
    by_cases hjp : j = p
    · subst hjp
      -- The parent has one more subdirectory and one more link; the sum does not wrap.
      have hbound := subdirs_le ht hj
      have hkey : ¬ IsDot name'.cstr := ht.not_isDot_of_new hj hdir hnew
      have hone : subdirs d' j = subdirs d j + 1 := by
        have hnotdot : ¬ IsDot (Dirent.key ⟨true, name', Int32.ofNat n⟩) := hkey
        rw [subdirs, hmade.parentEntries, List.countP_append, List.countP_singleton, ← subdirs]
        simp [hnotdot]
      rw [hmade.parentLinks, hone, Int32.toInt_add, hlinks]
      have hle := ht.le
      have h1 : (1 : Int32).toInt = 1 := rfl
      rw [h1, Int.bmod_eq_of_le (by split <;> omega) (by split <;> omega)]
      push_cast
      omega
    · rw [subdirs, (hmade.other j hj hjp).2, ← subdirs, (hmade.other j hj hjp).1]
      exact hlinks

/-- `fs_create` refuses, or adds the next inode; all edges stay. -/
theorem Grown.create (hg : Grown d n) (path : CString) (type : FileType) (name : NameBuf)
    (stack : ℕ → Bytes 64) :
    fsCreate d path type name stack = .ok (-1, d) ∨
    (∃ f, pathLookupParent d path name = .error f ∧
      fsCreate d path type name stack = .error f) ∨
    ∃ d', fsCreate d path type name stack = .ok (0, d') ∧ Grown d' (n + 1) ∧
      ∀ i c j, i < n → d.next i c = some j → d'.next i c = some j := by
  have ht := hg.tree
  rcases fsCreate_cases ht path type name stack with ⟨-, hrefused⟩ | hfault |
    ⟨-, p, name', -, hp, hdir, hnew, hn, ⟨-, hrun⟩ | ⟨-, hrun⟩⟩
  · exact .inl hrefused
  · exact .inr (.inl hfault)
  · obtain ⟨hg', hedges⟩ := hg.takeFile hn
    exact .inr (.inr ⟨_, hrun, hg', fun i c j hi hij => (hedges i c hi).trans hij⟩)
  · obtain ⟨d', hlink, hmade⟩ := linkDirectory_spec ht hn hp hdir name' hnew (hg.noHoles p hp hdir) stack
    exact .inr (.inr ⟨d', hrun.trans hlink, hg.made hn hp hdir hnew hmade,
      fun i c j hi hij => hmade.next_old hn hdir hnew hi hij⟩)

end PicoShell.Fs
