import PicoShell.Fs.Atomic
import PicoShell.Fs.DeleteRuns

/-! `consume` finds no component in a path of slashes, so a parent lookup of it yields the root
directory and leaves the name buffer alone.  The calls go on under whatever name the
uninitialised buffer holds. -/

namespace PicoShell.Fs

variable {d d' : Disk} {S : ℕ → Prop} {n : ℕ} {path : CString} {type : FileType}
  {name : NameBuf} {stack : ℕ → Bytes 64}

structure Slashes (path : CString) : Prop where
  nonempty : path.bytes ≠ []
  only : ∀ b ∈ path.bytes, b = slash

namespace Slashes

theorem head (h : Slashes path) : path.bytes.head? = some slash := by
  obtain ⟨b, bs, hbs⟩ := List.exists_cons_of_ne_nil h.nonempty
  have hb : b = slash := h.only b (by simp [hbs])
  rw [hbs, List.head?_cons, hb]

theorem components (h : Slashes path) : components path.bytes = [] := by
  have hrep : path.bytes = List.replicate path.bytes.length slash ++ [] := by
    rw [List.append_nil]
    exact List.eq_replicate_of_mem h.only
  rw [hrep, components_replicate]
  rfl

theorem lookupParent (h : Slashes path) (d : Disk) (name : NameBuf) :
    pathLookupParent d path name = .ok (some (d.inode 0), name) := by
  have hroot : inodeRead d rootInode = some (d.inode 0) := inodeRead_of_lt d (by decide)
  rw [pathLookupParent, resolve_components, if_pos h.head, h.components, hroot]
  rfl

end Slashes

/-- A call of `fs_create` that makes an inode does not leave the disk as it was. -/
theorem Tree.create_refuses_iff (ht : Tree d S n)
    (hparent : ∃ r, pathLookupParent d path name = .ok r) (type : FileType)
    (stack : ℕ → Bytes 64) :
    fsCreate d path type name stack = .ok (-1, d) ↔ ¬ Makes d path type name := by
  rcases fsCreate_cases ht path type name stack with ⟨hno, hrun⟩ | ⟨f, hfault, -⟩ |
    ⟨hmakes, p, name', -, hp, hdir, hnew, hn, hfile | ⟨-, hrun⟩⟩
  · exact iff_of_true hrun hno
  · obtain ⟨r, hr⟩ := hparent
    rw [hfault] at hr
    contradiction
  · refine iff_of_false ?_ (not_not.mpr hmakes)
    rw [hfile.2]
    intro h
    have := (Exec.ok_inj h).1
    contradiction
  · refine iff_of_false ?_ (not_not.mpr hmakes)
    have hSn : ¬ S n := fun hS => (ht.budget.lt n hS).false
    obtain ⟨r, d', hlink, -, hbit⟩ := linkDirectory_outcome ht.nav hn hSn hp hdir name' hnew stack
    rw [hrun, hlink]
    intro h
    rw [(Exec.ok_inj h).2, ht.bits n hn] at hbit
    exact hbit.false

/-- A call of `fs_delete` that removes a directory frees its block of dot entries. -/
theorem Tree.delete_refuses_iff (ht : Tree d S n)
    (hparent : ∃ r, pathLookupParent d path name = .ok r) (type : FileType) :
    fsDelete d path type name = .ok (-1, d) ↔ ¬ Deletes d path type name := by
  rcases fsDelete_cases ht path type name with ⟨hno, hrun⟩ | ⟨f, hfault, -⟩ |
    ⟨hdel, p, name', j, d₁, -, hp, hdir, hnext, hj, hjdir, -, hdot, hremove, hrun⟩
  · exact iff_of_true hrun hno
  · obtain ⟨r, hr⟩ := hparent
    rw [hfault] at hr
    contradiction
  · refine iff_of_false ?_ (not_not.mpr hdel)
    have hpj := ht.lt p _ j hp hdot hnext
    rcases dirRemove_cases ht.nav.wf hp hdir (ht.nav.whole p hp hdir) name'.cstr with
      ⟨hdot', -⟩ | ⟨-, -, hno⟩ | ⟨-, k, d₂, -, hin, hw, hrun'⟩
    · exact absurd hdot' hdot
    · rw [hremove] at hno
      simp at hno
    · rw [hremove] at hrun'
      obtain ⟨-, rfl⟩ := Exec.ok_inj hrun'
      obtain ⟨d', hrelease, hremoved⟩ := releaseInode_spec ht hp hj hjdir hpj.ne hin hw
      rw [hrun, hrelease]
      intro h
      -- directory `j` has its dot entries, so a first block
      rw [(Exec.ok_inj h).2] at hremoved
      obtain ⟨-, e, he, -⟩ := mem_of_next (ht.self j hj hjdir)
      have hlen : 0 < (d.inode j).len := by
        have := List.length_pos_of_mem he
        rw [Disk.length_entries] at this
        omega
      have hset := (ht.nav.wf.addrs j hj 0 (by decide)).mpr (by omega)
      obtain ⟨hlo, hhi⟩ := ht.nav.wf.range j hj 0 (by decide) hset
      have hmarked := ht.nav.wf.marked j hj 0 (by decide) hset
      have hblocks : numDataBlocks = 120 := rfl
      have hfreed := (hremoved.dataBit _ (by omega) hmarked).2
      exact hfreed 0 (by decide) (by omega)

/-- The parent lookup of the path fails, and so `fs_create` and `fs_delete` refuse it. -/
structure RefusesRoot (d : Disk) (path : CString) (name : NameBuf) : Prop where
  lookup : ∃ name', pathLookupParent d path name = .ok (none, name')
  create : ∀ type stack, type = .fileT ∨ type = .directoryT →
    fsCreate d path type name stack = .ok (-1, d)
  delete : ∀ type, type = .fileT ∨ type = .directoryT → fsDelete d path type name = .ok (-1, d)

/-- When `fs_create` refuses a path of slashes: the name in its buffer is one of the root directory,
or no inode is free. -/
theorem Tree.create_slashes_iff (ht : Tree d S n) (hpath : Slashes path) (name : NameBuf)
    (stack : ℕ → Bytes 64) (htype : type = .fileT ∨ type = .directoryT) :
    fsCreate d path type name stack = .ok (-1, d) ↔
      d.next 0 name.cstr ≠ none ∨ ∀ i < 80, d.inodeBit i = true := by
  have hparent := hpath.lookupParent d name
  have hlookup := ht.nav.dirLookup ht.nav.root name.cstr
  rw [ht.create_refuses_iff ⟨_, hparent⟩, Makes, hparent]
  constructor
  · intro hno
    by_contra hroom
    push Not at hroom
    obtain ⟨hnew, i, hi, hfree⟩ := hroom
    refine hno ⟨htype, ⟨i, hi, by simpa using hfree⟩, d.inode 0, name, rfl, ?_⟩
    rw [ht.nav.wf.uintOf_inum ht.nav.root, hlookup, hnew]
  · rintro hrefuse ⟨-, ⟨i, hi, hfree⟩, x, name', hx, hnew⟩
    obtain ⟨hroot, rfl⟩ := Exec.ok_inj hx
    obtain rfl := Option.some.inj hroot
    rw [ht.nav.wf.uintOf_inum ht.nav.root, hlookup, Except.ok.injEq] at hnew
    rcases hrefuse with htaken | hfull
    · obtain ⟨j, hj⟩ := Option.ne_none_iff_exists'.mp htaken
      rw [hj] at hnew
      simp only at hnew
      omega
    · rw [hfull i hi] at hfree
      contradiction

/-- When `fs_delete` refuses a path of slashes: it is `/`, or the name in the buffer is not that of
an empty directory in the root directory. -/
theorem Tree.delete_slashes_iff (ht : Tree d S n) (hpath : Slashes path) (name : NameBuf)
    (htype : type = .fileT ∨ type = .directoryT) :
    fsDelete d path type name = .ok (-1, d) ↔ path.bytes = [slash] ∨ IsDot name.cstr ∨
      ∀ j, d.next 0 name.cstr = some j →
        ∃ e ∈ d.entries (d.inode j), e.valid = true ∧ ¬ IsDot e.key := by
  have hparent := hpath.lookupParent d name
  rw [ht.delete_refuses_iff ⟨_, hparent⟩]
  by_cases hsingle : path.bytes = [slash]
  · exact iff_of_true (fun hdel => hdel.1 hsingle) (.inl hsingle)
  · have hkind : ¬ (type ≠ .fileT ∧ type ≠ .directoryT) := fun h => htype.elim h.1 h.2
    rw [ht.deletes_iff ht.nav.root hsingle hkind hparent]
    push Not
    constructor
    · intro hno
      by_cases hdot : IsDot name.cstr
      · exact .inr (.inl hdot)
      · refine .inr (.inr fun j hj => ?_)
        by_contra! hempty
        exact hdot (hno j hj hempty)
    · rintro (h | hdot | hfull) j hj hempty
      · exact absurd h hsingle
      · exact hdot
      · obtain ⟨e, he, hv, hname⟩ := hfull j hj
        exact absurd (hempty e he hv) hname

/-- No disk and no content of the name buffer makes the lookup of a path of slashes fail.  On a tree
the calls refuse the path for reasons of their own only, about the name in the buffer. -/
theorem slashes_not_refused (hpath : Slashes path) (d : Disk) (name : NameBuf) :
    pathLookupParent d path name = .ok (some (d.inode 0), name) ∧ ¬ RefusesRoot d path name ∧
    ∀ S n, Tree d S n → ∀ type, type = .fileT ∨ type = .directoryT →
      (∀ stack, fsCreate d path type name stack = .ok (-1, d) ↔
        d.next 0 name.cstr ≠ none ∨ ∀ i < 80, d.inodeBit i = true) ∧
      (fsDelete d path type name = .ok (-1, d) ↔ path.bytes = [slash] ∨ IsDot name.cstr ∨
        ∀ j, d.next 0 name.cstr = some j →
          ∃ e ∈ d.entries (d.inode j), e.valid = true ∧ ¬ IsDot e.key) := by
  have hparent := hpath.lookupParent d name
  refine ⟨hparent, ?_, ?_⟩
  · intro hrefuses
    obtain ⟨name', hnone⟩ := hrefuses.lookup
    rw [hparent] at hnone
    cases hnone
  · intro S n ht type htype
    exact ⟨fun stack => ht.create_slashes_iff hpath name stack htype,
      ht.delete_slashes_iff hpath name htype⟩

def pathRoot : CString := ⟨[slash], by decide⟩

theorem slashes_pathRoot : Slashes pathRoot where
  nonempty := List.cons_ne_nil slash []
  only _ hb := List.mem_singleton.mp hb

theorem slashes_not_refused_root : ∃ d, Booted d ∧
    pathLookupParent d pathRoot (Bytes.zero 59) = .ok (some (d.inode 0), Bytes.zero 59) := by
  obtain ⟨d, hboot⟩ := exists_booted
  exact ⟨d, hboot, (slashes_not_refused slashes_pathRoot d (Bytes.zero 59)).1⟩

/-- On a new disk, with zeros in the name buffer, `fs_create` of `/` succeeds and takes an inode. -/
theorem create_root : ∃ d d', Booted d ∧ Slashes pathRoot ∧
    fsCreate d pathRoot .fileT (Bytes.zero 59) (fun _ => Bytes.zero 64) = .ok (0, d') ∧
    d.inodeBit 1 = false ∧ d'.inodeBit 1 = true ∧ ¬ RefusesRoot d pathRoot (Bytes.zero 59) := by
  obtain ⟨d, hboot⟩ := exists_booted
  have honly := hboot.rootOnly
  have hparent := slashes_pathRoot.lookupParent d (Bytes.zero 59)
  have hnew : d.next 0 (Bytes.zero 59 : NameBuf).cstr = none := by
    rw [honly.next]
    decide
  have hfree : d.inodeBit 1 = false := by
    rw [honly.bit]
    rfl
  have hmakes : Makes d pathRoot .fileT (Bytes.zero 59) := by
    refine ⟨.inl rfl, ⟨1, by decide, hfree⟩, d.inode 0, Bytes.zero 59, hparent, ?_⟩
    rw [honly.tree.nav.wf.uintOf_inum Nat.one_pos, honly.tree.nav.dirLookup Nat.one_pos, hnew]
  rcases fsCreate_cases honly.tree pathRoot .fileT (Bytes.zero 59) fun _ => Bytes.zero 64 with
    ⟨hno, -⟩ | ⟨f, hfault, -⟩ | ⟨-, p, name', -, -, -, -, -, ⟨-, hrun⟩ | ⟨htype, -⟩⟩
  · exact absurd hmakes hno
  · rw [hparent] at hfault
    contradiction
  · refine ⟨d, _, hboot, slashes_pathRoot, hrun, hfree, ?_, ?_⟩
    · rw [Disk.inodeBit_takeInode _ _ _ (by decide)]
      simp
    · intro hrefuses
      have := hrefuses.create .fileT (fun _ => Bytes.zero 64) (.inl rfl)
      rw [hrun] at this
      have := (Exec.ok_inj this).1
      contradiction
  · contradiction

end PicoShell.Fs
