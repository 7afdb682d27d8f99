import PicoShell.Fs.Delete

namespace PicoShell.Fs

variable {d d₀ d' : Disk} {S : ℕ → Prop} {i j k p n : ℕ} {r : ℤ} {path : CString} {type : FileType}
  {name name' : NameBuf}

/-- With an entry to remove `fs_delete` removes it, frees the blocks and returns `-1`. -/
theorem fsDelete_deletes (ht : Tree d S n) (hdel : Deletes d path type name)
    (hvalid : ∀ p name', pathLookupParent d path name = .ok (some (d.inode p), name') → S p →
      (d.inode p).type = .directoryT → ∀ e ∈ d.entries (d.inode p), e.key = name'.cstr → e.valid = true) :
    ∃ p name' j k x d', pathLookupParent d path name = .ok (some (d.inode p), name') ∧ S p ∧
      (d.inode p).type = .directoryT ∧ d.next p name'.cstr = some j ∧ S j ∧
      (d.inode j).type = .directoryT ∧ (∀ e ∈ d.entries (d.inode j), e.valid = true → IsDot e.key) ∧
      ¬ IsDot name'.cstr ∧ (d.entries (d.inode p))[k]? = some x ∧ x.valid = true ∧
      x.key = name'.cstr ∧ fsDelete d path type name = .ok (-1, d') ∧ Removed d d' S p j k := by
  rcases fsDelete_cases ht path type name with ⟨hno, -⟩ | ⟨f, hfault, -⟩ | ⟨-, p, name', j, d₁, hparent,
    hp, hdir, hnext, hj, hjdir, hempty, hdot, hrun, hres⟩
  · exact absurd hdel hno
  · obtain ⟨-, -, y, name'', -, -, hparent, -⟩ := hdel
    rw [hfault] at hparent
    contradiction
  · have hpj := ht.lt p _ j hp hdot hnext
    rcases dirRemove_cases ht.nav.wf hp hdir (ht.nav.whole p hp hdir) name'.cstr with
      ⟨hdot', -⟩ | ⟨-, -, hrun'⟩ | ⟨-, k, d₂, ⟨⟨x, hx, hxk⟩, -⟩, hin, hw, hrun'⟩
    · exact absurd hdot' hdot
    · rw [hrun] at hrun'
      simp at hrun'
    · rw [hrun] at hrun'
      obtain ⟨-, rfl⟩ := Exec.ok_inj hrun'
      obtain ⟨d', hrel, hremoved⟩ := releaseInode_spec ht hp hj hjdir hpj.ne hin hw
      have hxk : x.key = name'.cstr := by simpa using hxk
      have hxv := hvalid p name' hparent hp hdir x (List.mem_of_getElem? hx) hxk
      exact ⟨p, name', j, k, x, d', hparent, hp, hdir, hnext, hj, hjdir, hempty, hdot, hx, hxv, hxk,
        hres.trans hrel, hremoved⟩

/-- The blocks of the allocated inodes are marked, and each belongs to one of them only. -/
structure BlocksOwned (d : Disk) : Prop where
  marked : ∀ i, Allocated d i → ∀ k < 12, (d.inode i).addr k ≠ -1 →
    0 ≤ (d.inode i).addr k ∧ (d.inode i).addr k < numDataBlocks ∧
      d.dataBit ((d.inode i).addr k).toNat = true
  unshared : ∀ i j, Allocated d i → Allocated d j → ∀ k < 12, ∀ l < 12, (d.inode i).addr k ≠ -1 →
    (d.inode i).addr k = (d.inode j).addr l → i = j ∧ k = l

theorem Grown.blocksOwned (hg : Grown d n) : BlocksOwned d := by
  have hlt : ∀ i, Allocated d i → i < n := fun i hi => (hg.tree.bits i hi.1).mp hi.2
  have hwf := hg.tree.nav.wf
  refine ⟨?_, ?_⟩
  · intro i hi k hk hset
    have hr := hwf.range i (hlt i hi) k hk hset
    exact ⟨hr.1, hr.2, hwf.marked i (hlt i hi) k hk hset⟩
  · intro i j hi hj
    exact hwf.unshared i j (hlt i hi) (hlt j hj)

def Call.Removes (d : Disk) : Call → Prop
  | .create _ _ _ _ => False
  | .delete path type name => Deletes d path type name

/-- Along a run that never removes an entry all allocated inodes form one tree. -/
theorem Run.grown_of_not_removes (hboot : Booted d₀)
    (hrun : Run (fun d call => ¬ call.Removes d) d₀ d) : ∃ n, Grown d n := by
  apply hrun.invariant (I := fun d => ∃ n, Grown d n) ⟨1, hboot.rootOnly.grown⟩
  rintro d call r d' ⟨n, hg⟩ hcall hstep
  cases call with
  | create path type name stack => exact hg.create_step hstep
  | delete path type name =>
    change fsDelete d path type name = _ at hstep
    rcases fsDelete_cases hg.tree path type name with ⟨-, hrun⟩ | ⟨f, -, hrun⟩ | ⟨hdel, -⟩
    · rw [hrun] at hstep
      obtain ⟨-, rfl⟩ := Exec.ok_inj hstep
      exact ⟨n, hg⟩
    · rw [hrun] at hstep
      contradiction
    · exact absurd hdel hcall

/-- In every run of creates and deletes none of which gets to the removal of an entry, whatever
they return, each allocated inode owns its blocks alone and they are marked. -/
theorem run_blocksOwned (hboot : Booted d₀) (hrun : Run (fun d call => ¬ call.Removes d) d₀ d) :
    BlocksOwned d := by
  obtain ⟨n, hg⟩ := Run.grown_of_not_removes hboot hrun
  exact hg.blocksOwned

theorem run_blocksOwned_first : ∃ d₀ d, Booted d₀ ∧ mkdirA.exec d₀ = .ok (0, d) ∧
    BlocksOwned d := by
  obtain ⟨d₀, hboot⟩ := exists_booted
  obtain ⟨d, -, -, hstep, -⟩ := mkdirA_spec hboot.rootOnly
  have hnot : ¬ mkdirA.Removes d₀ := id
  exact ⟨d₀, d, hboot, hstep, run_blocksOwned hboot (.step .refl hnot hstep)⟩

def rmdirA : Call := .delete pathA .directoryT (Bytes.zero 59)

/-- Making and deleting the only directory of a file system. -/
theorem rmdirA_spec (hboot : Booted d₀) : ∃ d₁ d₂ k x, mkdirA.exec d₀ = .ok (0, d₁) ∧ Grown d₁ 2 ∧
    d₁.next 0 [97] = some 1 ∧ (d₁.inode 1).len = 128 ∧
    (∀ e ∈ d₁.entries (d₁.inode 1), e.valid = true → IsDot e.key) ∧
    (d₁.entries (d₁.inode 0))[k]? = some x ∧ x.valid = true ∧ x.key = [97] ∧
    rmdirA.exec d₁ = .ok (-1, d₂) ∧ Removed d₁ d₂ (· < 2) 0 1 k := by
  have honly := hboot.rootOnly
  obtain ⟨d₁, name', hkey, hrun₁, hmade⟩ := mkdirA_spec honly
  have hnew : d₀.next 0 name'.cstr = none := by rw [hkey, honly.next, if_neg (by decide)]
  obtain ⟨hg, hnext⟩ : Grown d₁ 2 ∧ d₁.next 0 [97] = some 1 := by
    refine ⟨?_, ?_⟩
    · rcases honly.grown.create pathA .directoryT (Bytes.zero 59) (fun _ => Bytes.zero 64) with
        hrun | ⟨f, -, hrun⟩ | ⟨d, hrun, hg, -⟩
      · exact absurd (Exec.ok_unique hrun₁ hrun).1 (by decide)
      · exact absurd (hrun₁.symm.trans hrun) (by simp)
      · rw [(Exec.ok_unique hrun₁ hrun).2]
        exact hg
    · rw [hmade.next (by decide) honly.type hnew Nat.one_pos, if_pos ⟨rfl, hkey.symm⟩]
  have hempty : ∀ e ∈ d₁.entries (d₁.inode 1), e.valid = true → IsDot e.key := by
    intro e he _
    rw [hmade.childEntries] at he
    rcases List.mem_pair.mp he with rfl | rfl
    · exact .inl (key_dot _)
    · exact .inr (key_dotDot _)
  -- the call finds the entry
  have hcomps : components pathA.bytes = [] ++ [[97]] := by decide
  obtain ⟨cs, c, name₁, hcs, hparent, hkey₁⟩ := hg.tree.nav.lookupParent_legal legal_pathA (Bytes.zero 59)
  obtain ⟨rfl, hc⟩ := List.append_inj' (hcs.symm.trans hcomps) rfl
  obtain rfl : c = [97] := by simpa using hc
  rw [Walk.walk_nil, Option.bind_some, if_pos hg.tree.rootType] at hparent
  have hkey₁ := hkey₁ (by simp)
  have hdel : Deletes d₁ pathA .directoryT (Bytes.zero 59) := by
    rw [hg.tree.deletes_iff hg.tree.nav.root (by decide) (by simp) hparent]
    exact ⟨1, by rw [hkey₁, hnext], hempty, by rw [hkey₁]; decide⟩
  obtain ⟨p, name₂, j, k, x, d₂, hparent', hp, hdir, hnext', -, -, -, -, hx, hxv, hxk, hrun₂,
    hremoved⟩ := fsDelete_deletes hg.tree hdel fun p _ _ hp hdir e he _ => hg.noHoles p hp hdir e he
  rw [hparent] at hparent'
  obtain ⟨hp0, rfl⟩ := Exec.ok_inj hparent'
  obtain rfl := hg.tree.nav.wf.inode_inj hg.tree.nav.root hp (Option.some.inj hp0)
  rw [hkey₁, hnext, Option.some.injEq] at hnext'
  subst hnext'
  have hlen := hmade.childLen
  exact ⟨d₁, d₂, k, x, hrun₁, hg, hnext, hlen, hempty, hx, hxv, hxk.trans hkey₁, hrun₂, hremoved⟩

/-- Making and deleting `/a` leaves an allocated inode with a block that is marked free. -/
theorem rmdirA_not_blocksOwned : ∃ d₀ d₁ d₂, Booted d₀ ∧ mkdirA.exec d₀ = .ok (0, d₁) ∧
    rmdirA.exec d₁ = .ok (-1, d₂) ∧ Allocated d₂ 1 ∧ (d₂.inode 1).addr 0 ≠ -1 ∧
    d₂.dataBit ((d₂.inode 1).addr 0).toNat = false ∧ ¬ BlocksOwned d₂ := by
  obtain ⟨d₀, hboot⟩ := exists_booted
  obtain ⟨d₁, d₂, k, -, hrun₁, hg, -, hlen, -, -, -, -, hrun₂, hremoved⟩ := rmdirA_spec hboot
  have hinode := hremoved.inode 1 (by decide) (by decide)
  have hwf := hg.tree.nav.wf
  have hset : (d₁.inode 1).addr 0 ≠ -1 := by
    rw [hwf.addrs 1 (by decide) 0 (by decide), hlen]
    decide
  have hr := hwf.range 1 (by decide) 0 (by decide) hset
  have hr' : (d₁.inode 1).addr 0 < 120 := hr.2
  have halloc : Allocated d₂ 1 := by
    refine ⟨by decide, ?_⟩
    rw [hremoved.inodeBit, hg.tree.bits 1 (by decide)]
    decide
  have hclear : d₂.dataBit ((d₁.inode 1).addr 0).toNat = false := by
    by_contra hbit
    have hb : ((d₁.inode 1).addr 0).toNat < 120 := by omega
    have := (hremoved.dataBit _ hb (by simpa using hbit)).2 0 (by decide)
    omega
  rw [← hinode] at hset hclear
  refine ⟨d₀, d₁, d₂, hboot, hrun₁, hrun₂, halloc, hset, hclear, ?_⟩
  intro howned
  have := (howned.marked 1 halloc 0 (by decide) hset).2.2
  rw [hclear] at this
  contradiction

/-- The last component is neither `.` nor `..` and names, in a directory the others lead to, an
entry for inode `j`. -/
def Names (d : Disk) (path : CString) (p j : ℕ) : Prop :=
  ∃ cs c, components path.bytes = cs ++ [c] ∧ Walk.walk d.next 0 cs = some p ∧
    (d.inode p).type = .directoryT ∧ ¬ IsDot c ∧ Has d p c j

/-- The path names a file, or a directory without entries other than `.` and `..`. -/
def Deletable (d : Disk) (path : CString) : Prop :=
  ∃ p j, Names d path p j ∧ ((d.inode j).type = .fileT ∨ (d.inode j).type = .directoryT ∧
    ∀ e ∈ d.entries (d.inode j), e.valid = true → IsDot e.key)

/-- Result `r` and disk `d'` of an all-or-nothing delete: a path that can be deleted is gone with
its inode, its blocks and its link, and the paths that did not lead through it stay. -/
structure AllOrNothing (d : Disk) (path : CString) (r : ℤ) (d' : Disk) : Prop where
  zero_iff : r = 0 ↔ Deletable d path
  done : Deletable d path → ∀ p j, Names d path p j →
    (∀ name, pathLookup d' path name = .ok none) ∧ d'.inodeBit j = false ∧
    (∀ k < 12, (d.inode j).addr k ≠ -1 → d'.dataBit ((d.inode j).addr k).toNat = false) ∧
    ((d.inode j).type = .directoryT → (d'.inode p).numLinks = (d.inode p).numLinks - 1) ∧
    ∀ other, Legal other → (∀ cs, cs <+: components other.bytes → Walk.walk d.next 0 cs ≠ some j) →
      Walk.walk d'.next 0 (components other.bytes) = Walk.walk d.next 0 (components other.bytes)
  failed : ¬ Deletable d path → r = -1 ∧ d' = d

/-- On a legal path the condition of the specification is the one the code checks. -/
theorem Grown.deletable_iff (hg : Grown d n) (hpath : Legal path)
    (htype : type = .fileT ∨ type = .directoryT) (name : NameBuf) :
    Deletable d path ↔ Deletes d path type name := by
  have ht := hg.tree
  obtain ⟨cs, c, name', hcs, hparent, hkey⟩ := ht.nav.lookupParent_legal hpath name
  have hroot : path.bytes ≠ [slash] := by
    intro h
    apply hpath.nonempty
    rw [h]
    decide
  have htype' : ¬ (type ≠ .fileT ∧ type ≠ .directoryT) := fun h => htype.elim h.1 h.2
  constructor
  · rintro ⟨p, j, ⟨cs', c', hcs', hw, hdir, hdot, e, he, hv, hek, hej⟩, hkind⟩
    obtain ⟨rfl, hc⟩ := List.append_inj' (hcs.symm.trans hcs') rfl
    obtain rfl : c = c' := by simpa using hc
    rw [hw, Option.bind_some, if_pos hdir] at hparent
    have hkey := hkey (by simp [hw])
    have hp := ht.nav.closed.walk ht.nav.root hw
    have hnext := next_of_mem hdir (ht.names p hp hdir) he hv
    rw [hek, hej, Int.toNat_natCast] at hnext
    rw [ht.deletes_iff hp hroot htype' hparent, hkey]
    refine ⟨j, hnext, ?_, hdot⟩
    -- In these trees entries lead to directories only.
    rcases hkind with hfile | ⟨-, hempty⟩
    · rw [ht.kind p c j hp hnext] at hfile
      contradiction
    · exact hempty
  · intro hdel
    obtain ⟨-, -, x, name'', -, -, hparent', -⟩ := id hdel
    have hsome := hparent.symm.trans hparent'
    cases hw : Walk.walk d.next 0 cs with
    | none =>
      rw [hw] at hsome
      simp at hsome
    | some p =>
      have hp := ht.nav.closed.walk ht.nav.root hw
      by_cases hdir : (d.inode p).type = .directoryT
      · rw [hw, Option.bind_some, if_pos hdir] at hparent
        have hkey := hkey (by simp [hw])
        rw [ht.deletes_iff hp hroot htype' hparent, hkey] at hdel
        obtain ⟨j, hnext, hempty, hdot⟩ := hdel
        exact ⟨p, j, ⟨cs, c, hcs, hw, hdir, hdot, hg.has_of_next hp hnext⟩,
          .inr ⟨ht.kind p c j hp hnext, hempty⟩⟩
      · rw [hw, Option.bind_some, if_neg hdir] at hsome
        simp at hsome

/-- After any run of `fs_create` calls, `fs_delete` of a legal path is all or nothing exactly when
there is nothing to delete. -/
theorem delete_allOrNothing_iff (hboot : Booted d₀)
    (hrun : Run (fun _ call => call.IsCreate) d₀ d) (hpath : Legal path)
    (htype : type = .fileT ∨ type = .directoryT) (name : NameBuf) :
    ∃ r d', fsDelete d path type name = .ok (r, d') ∧
      (AllOrNothing d path r d' ↔ ¬ Deletable d path) := by
  obtain ⟨n, hg⟩ := Run.grown hboot hrun
  rcases fsDelete_cases hg.tree path type name with ⟨hno, hres⟩ | ⟨f, hfault, -⟩ | ⟨hdel, -⟩
  · rw [← hg.deletable_iff hpath htype] at hno
    refine ⟨-1, d, hres, iff_of_true ⟨?_, ?_, ?_⟩ hno⟩
    · simpa using hno
    · exact fun hdel => absurd hdel hno
    · exact fun _ => ⟨rfl, rfl⟩
  · obtain ⟨_, _, _, -, hparent, -⟩ := hg.tree.nav.lookupParent_legal hpath name
    rw [hfault] at hparent
    contradiction
  · obtain ⟨_, _, _, _, _, d', -, -, -, -, -, -, -, -, -, -, -, hres, -⟩ :=
      fsDelete_deletes hg.tree hdel fun p _ _ hp hdir e he _ => hg.noHoles p hp hdir e he
    rw [← hg.deletable_iff hpath htype] at hdel
    refine ⟨-1, d', hres, iff_of_false ?_ (fun hno => hno hdel)⟩
    intro hall
    exact absurd (hall.zero_iff.mpr hdel) (by decide)

/-- Deleting the empty directory `/a` removes it and returns `-1`. -/
theorem rmdirA_not_allOrNothing : ∃ d₀ d₁ d₂, Booted d₀ ∧ mkdirA.exec d₀ = .ok (0, d₁) ∧
    rmdirA.exec d₁ = .ok (-1, d₂) ∧ Deletable d₁ pathA ∧ d₁.next 0 [97] = some 1 ∧
    d₂.next 0 [97] = none ∧ ¬ AllOrNothing d₁ pathA (-1) d₂ := by
  obtain ⟨d₀, hboot⟩ := exists_booted
  obtain ⟨d₁, d₂, k, x, hrun₁, hg, hnext, -, hempty, hx, hxv, hxk, hrun₂, hremoved⟩ :=
    rmdirA_spec hboot
  have hroot := hg.tree.nav.root
  have hdel : Deletable d₁ pathA := by
    refine ⟨0, 1, ⟨[], [97], by decide, rfl, hg.tree.rootType, by decide, ?_⟩, .inr ⟨?_, hempty⟩⟩
    · exact hg.has_of_next hroot hnext
    · exact hg.tree.kind 0 _ 1 hroot hnext
  refine ⟨d₀, d₁, d₂, hboot, hrun₁, hrun₂, hdel, hnext, ?_, ?_⟩
  · rw [hremoved.next hg.tree hroot hg.tree.rootType hx hxv hroot, if_pos ⟨rfl, hxk.symm⟩]
  · intro hall
    exact absurd (hall.zero_iff.mpr hdel) (by decide)

/-- Deleting `/a` in a new file system. -/
theorem delete_allOrNothing_new : ∃ d₀ r d', Booted d₀ ∧
    fsDelete d₀ pathA .directoryT (Bytes.zero 59) = .ok (r, d') ∧ AllOrNothing d₀ pathA r d' := by
  obtain ⟨d₀, hboot⟩ := exists_booted
  obtain ⟨r, d', hres, hiff⟩ := delete_allOrNothing_iff hboot .refl legal_pathA
    (.inr (Eq.refl FileType.directoryT)) (Bytes.zero 59)
  refine ⟨d₀, r, d', hboot, hres, hiff.mpr ?_⟩
  -- the only entries are the dot entries of the root
  rintro ⟨p, j, ⟨cs, c, hcs, hw, -, hdot, e, he, -, hkey, -⟩, -⟩
  have hcomps : components pathA.bytes = [] ++ [[97]] := by decide
  obtain ⟨rfl, -⟩ := List.append_inj' (hcs.symm.trans hcomps) rfl
  rw [Walk.walk_nil, Option.some.injEq] at hw
  rw [← hw, hboot.rootOnly.entries] at he
  apply hdot
  rw [← hkey]
  rcases List.mem_pair.mp he with rfl | rfl
  · exact .inl (key_dot 0)
  · exact .inr (key_dotDot 0)

end PicoShell.Fs
