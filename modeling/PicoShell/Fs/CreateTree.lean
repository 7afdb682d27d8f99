import PicoShell.Fs.CreateRuns

namespace PicoShell.Fs

variable {d d₀ d' : Disk} {S : ℕ → Prop} {i j k p n : ℕ}

/-- The directories reachable from the root inode along valid entries. -/
inductive Reachable (d : Disk) : ℕ → Prop
  | root (hdir : (d.inode 0).type = .directoryT) : Reachable d 0
  | entry {i j : ℕ} {e : Dirent} (from_dir : Reachable d i) (he : e ∈ d.entries (d.inode i))
      (hv : e.valid = true) (hj : e.inum.toInt = j) (hdir : (d.inode j).type = .directoryT) :
      Reachable d j

/-- Slot `k` of directory `p` is a valid entry, other than `.` and `..`, for inode `i`. -/
def Links (d : Disk) (p k i : ℕ) : Prop :=
  ∃ e, (d.entries (d.inode p))[k]? = some e ∧ e.valid = true ∧ ¬ IsDot e.key ∧ e.inum.toInt = i

def Has (d : Disk) (i : ℕ) (name : List UInt8) (j : ℕ) : Prop :=
  ∃ e ∈ d.entries (d.inode i), e.valid = true ∧ e.key = name ∧ e.inum.toInt = j

def subdirectories (d : Disk) (i : ℕ) : ℕ :=
  (d.entries (d.inode i)).countP fun e => e.valid && !decide (IsDot e.key) &&
    decide ((d.inode e.inum.toInt.toNat).type = .directoryT)

structure DirectoryTree (d : Disk) : Prop where
  self : ∀ i, Reachable d i → Has d i dotName i
  root : Has d 0 dotDotName 0 ∧ ∀ p k, Reachable d p → ¬ Links d p k 0
  parent : ∀ i, Reachable d i → i ≠ 0 → ∃ p k, Reachable d p ∧ Links d p k i ∧
    Has d i dotDotName p ∧ ∀ p' k', Reachable d p' → Links d p' k' i → p' = p ∧ k' = k
  names : ∀ i, Reachable d i → NamesDistinct (d.entries (d.inode i))
  numLinks : ∀ i, Reachable d i →
    (d.inode i).numLinks.toInt = (if i = 0 then 0 else 1) + (subdirectories d i : ℤ)

/-- The inodes reached from the root along entries other than `.` and `..`. -/
inductive Descends (d : Disk) : ℕ → Prop
  | root : Descends d 0
  | child {i c j} (from_dir : Descends d i) (hc : ¬ IsDot c) (hij : d.next i c = some j) :
      Descends d j

namespace Tree

theorem reachable (ht : Tree d S n) (h : Reachable d i) : S i ∧ (d.inode i).type = .directoryT := by
  induction h with
  | root hdir => exact ⟨ht.nav.root, hdir⟩
  | @entry i j e _ he hv hj hdir ih =>
    obtain ⟨k, hk, hSk⟩ := ht.nav.target i ih.1 ih.2 e he hv
    obtain rfl : k = j := Int.ofNat.inj (hk.symm.trans hj)
    exact ⟨hSk, hdir⟩

theorem closed_reachable (ht : Tree d S n) : Walk.Closed d.next (Reachable d) := by
  intro i c j hi hij
  obtain ⟨-, e, he, hv, -, hej⟩ := mem_of_next hij
  obtain ⟨hSi, hdir⟩ := ht.reachable hi
  obtain ⟨k, hk, -⟩ := ht.nav.target i hSi hdir e he hv
  have hkj : k = j := by omega
  subst hkj
  exact .entry hi he hv hk (ht.kind i c k hSi hij)

theorem reachable_of_descends (ht : Tree d S n) (h : Descends d i) : S i ∧ Reachable d i := by
  have hreach : Reachable d i := by
    induction h with
    | root => exact .root ht.rootType
    | @child i c j _ _ hij ih => exact ht.closed_reachable i c j ih hij
  exact ⟨(ht.reachable hreach).1, hreach⟩

/-- Every reachable directory is reached without dot entries. -/
theorem descends (ht : Tree d S n) (h : Reachable d i) : Descends d i := by
  induction h with
  | root hdir => exact .root
  | @entry i j e hi he hv hj hdir ih =>
    obtain ⟨hSi, hidir⟩ := ht.reachable hi
    have hnext : d.next i e.key = some j := by
      rw [next_of_mem hidir (ht.names i hSi hidir) he hv, hj, Int.toNat_natCast]
    by_cases hdot : IsDot e.key
    · rcases hdot with hkey | hkey
      · rw [hkey, ht.self i hSi hidir, Option.some.injEq] at hnext
        rwa [← hnext]
      · rw [hkey] at hnext
        cases ih with
        | root =>
          rw [ht.upRoot, Option.some.injEq] at hnext
          rw [← hnext]
          exact .root
        | @child p c _ hp hc hpi =>
          rw [ht.up p c i (ht.reachable_of_descends hp).1 hc hpi, Option.some.injEq] at hnext
          rwa [← hnext]
    · exact .child ih hdot hnext

/-- Edges that end in `P` are kept, and the sources of all edges are in `P`. -/
theorem descends_kept {P : ℕ → Prop} (ht : Tree d S n)
    (hkept : ∀ i c j, S i → ¬ IsDot c → d.next i c = some j → P j → d'.next i c = some j)
    (hsource : ∀ i c j, S i → ¬ IsDot c → d.next i c = some j → P i)
    (h : Descends d j) (hj : P j) : Descends d' j := by
  induction h with
  | root => exact .root
  | @child i c j hi hc hij ih =>
    have hSi := (ht.reachable_of_descends hi).1
    exact .child (ih (hsource i c j hSi hc hij)) hc (hkept i c j hSi hc hij hj)

end Tree

namespace Grown

theorem next_of_links (hg : Grown d n) (hp : p < n) (hdir : (d.inode p).type = .directoryT)
    (h : Links d p k i) : ∃ c, ¬ IsDot c ∧ d.next p c = some i ∧
      ∃ e, (d.entries (d.inode p))[k]? = some e ∧ e.valid = true ∧ e.key = c := by
  obtain ⟨e, hk, hv, hdot, hi⟩ := h
  refine ⟨e.key, hdot, ?_, e, hk, hv, rfl⟩
  rw [next_of_mem hdir (hg.tree.names p hp hdir) (List.mem_of_getElem? hk) hv, hi,
    Int.toNat_natCast]

theorem has_of_next (hg : Grown d n) (hi : i < n) {c : List UInt8} (h : d.next i c = some j) :
    Has d i c j := by
  obtain ⟨hdir, e, he, hv, hkey, hej⟩ := mem_of_next h
  obtain ⟨k, hk, -⟩ := hg.tree.nav.target i hi hdir e he hv
  exact ⟨e, he, hv, hkey, by omega⟩

theorem directoryTree (hg : Grown d n) : DirectoryTree d := by
  have ht := hg.tree
  refine ⟨?_, ⟨?_, ?_⟩, ?_, ?_, ?_⟩
  · intro i hi
    obtain ⟨hin, hdir⟩ := ht.reachable hi
    exact hg.has_of_next hin (ht.self i hin hdir)
  · exact hg.has_of_next ht.nav.root ht.upRoot
  · intro p k hp hlink
    obtain ⟨hpn, hdir⟩ := ht.reachable hp
    obtain ⟨c, hc, hnext, -⟩ := hg.next_of_links hpn hdir hlink
    exact absurd (ht.lt p c 0 hpn hc hnext) (Nat.not_lt_zero p)
  · intro i hi hne
    cases ht.descends hi with
    | root => exact absurd rfl hne
    | @child p c _ hp hc hpi =>
      obtain ⟨hpn, hpreach⟩ := ht.reachable_of_descends hp
      obtain ⟨hdir, e, he, hv, hkey, hei⟩ := mem_of_next hpi
      obtain ⟨m, hm, -⟩ := ht.nav.target p hpn hdir e he hv
      obtain ⟨k, hk⟩ := List.mem_iff_getElem?.mp he
      have hup := ht.up p c i hpn hc hpi
      refine ⟨p, k, hpreach, ⟨e, hk, hv, by rwa [hkey], by omega⟩,
        hg.has_of_next (ht.reachable hi).1 hup, ?_⟩
      -- a second entry has the same parent and the same name
      intro p' k' hp' hlink
      obtain ⟨hpn', hdir'⟩ := ht.reachable hp'
      obtain ⟨c', hc', hnext', e', hk', hv', hkey'⟩ := hg.next_of_links hpn' hdir' hlink
      have hpp : p' = p := by
        have := ht.up p' c' i hpn' hc' hnext'
        rw [hup, Option.some.injEq] at this
        exact this.symm
      subst hpp
      have hcc := ht.inj p' c c' i hpn' hc hc' hpi hnext'
      exact ⟨rfl, slot_unique (ht.names p' hpn' hdir') hk' hk hv' hv (by rw [hkey', hkey, hcc])⟩
  · intro i hi
    obtain ⟨hin, hdir⟩ := ht.reachable hi
    exact ht.names i hin hdir
  · intro i hi
    obtain ⟨hin, hdir⟩ := ht.reachable hi
    have hsame : subdirectories d i = subdirs d i := by
      apply List.countP_congr
      intro e he
      simp only [Bool.and_eq_true, decide_eq_true_eq, and_iff_left_iff_imp]
      rintro ⟨hv, -⟩
      exact ht.kind i e.key _ hin (next_of_mem hdir (ht.names i hin hdir) he hv)
    rw [hg.links i hin hdir, hsame]

end Grown

/-- A call for a new name in a live directory, while an inode is free. -/
theorem Tree.create_new (ht : Tree d S n) {path : CString} (hpath : Legal path)
    {cs : List (List UInt8)} {c : List UInt8} (hcs : components path.bytes = cs ++ [c])
    (hw : Walk.walk d.next 0 cs = some p) (hdir : (d.inode p).type = .directoryT)
    (hnew : d.next p c = none) (hn : n < 80) {type : FileType}
    (htype : type = .fileT ∨ type = .directoryT) (name : NameBuf) (stack : ℕ → Bytes 64) :
    ∃ name', name'.cstr = c ∧ fsCreate d path type name stack =
      if type = .directoryT then
        linkDirectory (d.takeInode (freshInode type 1) n) (d.inode p)
          { freshInode type 1 with inum := Int32.ofNat n } name' stack
      else .ok (0, d.takeInode (freshInode type 1) n) := by
  obtain ⟨cs', c', name', hcs', hparent, hkey⟩ := ht.nav.lookupParent_legal hpath name
  obtain ⟨rfl, hc⟩ := List.append_inj' (hcs'.symm.trans hcs) rfl
  obtain rfl : c' = c := by simpa using hc
  rw [hw, Option.bind_some, if_pos hdir] at hparent
  have hkey := hkey (by rw [hw]; exact Option.some_ne_none p)
  have hp := ht.nav.closed.walk ht.nav.root hw
  have huint := ht.nav.wf.uintOf_inum hp
  have halloc := ((ht.inodeAlloc (freshInode type 1)).resolve_left fun h => hn.ne h.1).2
  refine ⟨name', hkey, ?_⟩
  rw [fsCreate, if_neg (by rcases htype with rfl | rfl <;> simp)]
  simp only [bind, Except.bind, hparent, huint, ht.nav.dirLookup hp, hkey, hnew, halloc, ne_eq,
    not_true_eq_false, ↓reduceIte]
  rfl

def Call.IsCreate : Call → Prop
  | .create _ _ _ _ => True
  | .delete _ _ _ => False

theorem Grown.create_step (hg : Grown d n) {path : CString} {type : FileType} {name : NameBuf}
    {stack : ℕ → Bytes 64} {r : ℤ} (h : (Call.create path type name stack).exec d = .ok (r, d')) :
    ∃ n, Grown d' n := by
  change fsCreate d path type name stack = _ at h
  rcases hg.create path type name stack with hrun | ⟨f, -, hrun⟩ | ⟨d₁, hrun, hg', -⟩
  · rw [hrun] at h
    obtain ⟨-, rfl⟩ := Exec.ok_inj h
    exact ⟨n, hg⟩
  · rw [hrun] at h
    contradiction
  · rw [hrun] at h
    obtain ⟨-, rfl⟩ := Exec.ok_inj h
    exact ⟨n + 1, hg'⟩

/-- Along a run of `fs_create` calls all allocated inodes form one tree. -/
theorem Run.grown (hboot : Booted d₀) (hrun : Run (fun _ call => call.IsCreate) d₀ d) :
    ∃ n, Grown d n := by
  apply hrun.invariant (I := fun d => ∃ n, Grown d n) ⟨1, hboot.rootOnly.grown⟩
  rintro d call r d' ⟨n, hg⟩ hcall hstep
  cases call with
  | create path type name stack => exact hg.create_step hstep
  | delete path type name => exact hcall.elim

/-- After any run of `fs_create` calls from `fs_init` the reachable directories form a tree, and
each further call on a legal path returns and leaves every resolving path where it led. -/
theorem create_run_tree (hboot : Booted d₀) (hrun : Run (fun _ call => call.IsCreate) d₀ d) :
    DirectoryTree d ∧
    ∀ path, Legal path → ∀ type name stack, ∃ r d', fsCreate d path type name stack = .ok (r, d') ∧
      ∀ other buf x, pathLookup d other buf = .ok (some x) →
        ∃ x', pathLookup d' other buf = .ok (some x') ∧ x'.inum = x.inum := by
  obtain ⟨n, hg⟩ := Run.grown hboot hrun
  refine ⟨hg.directoryTree, ?_⟩
  intro path hpath type name stack
  rcases hg.create path type name stack with hrun | ⟨f, hfault, -⟩ | ⟨d', hrun, hg', hedges⟩
  · exact ⟨-1, d, hrun, fun _ _ x hlookup => ⟨x, hlookup, rfl⟩⟩
  · obtain ⟨_, _, _, -, hparent, -⟩ := hg.tree.nav.lookupParent_legal hpath name
    rw [hfault] at hparent
    contradiction
  · refine ⟨0, d', hrun, ?_⟩
    intro other buf x hlookup
    obtain ⟨j, hw, hj, rfl, hagain⟩ := hg.tree.lookup_some hlookup
    have hw' := Walk.walk_mono hg.tree.nav.closed (fun i c k hi hik => hedges i c k hi hik)
      hg.tree.nav.root hw
    refine ⟨_, hagain _ _ _ hg'.tree hw', ?_⟩
    apply Int32.toInt_inj.mp
    rw [hg'.tree.nav.wf.inum j (by omega), hg.tree.nav.wf.inum j hj]

def pathA : CString := ⟨[47, 97], by decide⟩

theorem legal_pathA : Legal pathA := ⟨rfl, by decide, by decide⟩

def mkdirA : Call := .create pathA .directoryT (Bytes.zero 59) fun _ => Bytes.zero 64

theorem mkdirA_spec (hd : RootOnly d) : ∃ d' name', name'.cstr = [97] ∧
    mkdirA.exec d = .ok (0, d') ∧ Made d d' (· < 1) 0 1 name' := by
  have hnew : d.next 0 [97] = none := by rw [hd.next, if_neg (by decide)]
  have hcomps : components pathA.bytes = [] ++ [[97]] := by decide
  obtain ⟨name', hkey, hrun⟩ := hd.tree.create_new legal_pathA hcomps rfl hd.type hnew
    (by decide) (.inr rfl) (Bytes.zero 59) fun _ => Bytes.zero 64
  obtain ⟨d', hlink, hmade⟩ := linkDirectory_spec hd.tree (by decide) Nat.one_pos hd.type name'
    (by rw [hkey, hnew]) (hd.noHoles 0 Nat.one_pos hd.type) fun _ => Bytes.zero 64
  rw [if_pos rfl, hlink] at hrun
  exact ⟨d', name', hkey, hrun, hmade⟩

/-- The first directory of a new file system. -/
theorem create_run_tree_first : ∃ d₀ d, Booted d₀ ∧ mkdirA.exec d₀ = .ok (0, d) ∧
    DirectoryTree d := by
  obtain ⟨d₀, hboot⟩ := exists_booted
  obtain ⟨d, -, -, hstep, -⟩ := mkdirA_spec hboot.rootOnly
  have hcreate : mkdirA.IsCreate := trivial
  exact ⟨d₀, d, hboot, hstep, (create_run_tree hboot (.step .refl hcreate hstep)).1⟩

end PicoShell.Fs
