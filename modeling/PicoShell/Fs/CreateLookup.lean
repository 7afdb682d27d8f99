import PicoShell.Fs.DeleteRuns

namespace PicoShell.Fs

variable {d d₀ d' d'' : Disk} {S : ℕ → Prop} {i j p n : ℕ} {c : List UInt8} {path : CString}
  {type : FileType} {name : NameBuf} {stack : ℕ → Bytes 64}

/-- A tree whose invalidated slots have the empty name. -/
structure Settled (d : Disk) (S : ℕ → Prop) (n : ℕ) : Prop where
  tree : Tree d S n
  blank : ∀ i, S i → (d.inode i).type = .directoryT → ∀ e ∈ d.entries (d.inode i),
    e.valid = false → e.key = []

theorem RootOnly.settled (h : RootOnly d) : Settled d (· < 1) 1 := by
  refine ⟨h.tree, ?_⟩
  intro i hi hdir e he hv
  rw [h.noHoles i hi hdir e he] at hv
  contradiction

/-- The call does not rely on an invalidated slot: a directory is made in a parent without any,
and when a delete of a path of slashes finds the empty name in its uninitialised buffer, the root
has none. -/
def Call.Sound (d : Disk) : Call → Prop
  | .create path type name _ => Makes d path type name → type = .directoryT →
      ∀ dirInode name', pathLookupParent d path name = .ok (some dirInode, name') →
        ∀ e ∈ d.entries dirInode, e.valid = true
  | .delete path _ name => components path.bytes = [] → name.cstr = [] →
      ∀ e ∈ d.entries (d.inode 0), e.valid = true

/-- The call removes the entry of inode `j`. -/
def Call.Unlinks (d : Disk) (j : ℕ) : Call → Prop
  | .create _ _ _ _ => False
  | .delete path type name => Deletes d path type name ∧
      ∃ dirInode name', pathLookupParent d path name = .ok (some dirInode, name') ∧
        dirLookup d (uintOf dirInode.inum.toInt) name'.cstr = .ok j

/-- What a call does to the edges: it keeps all, or removes those to a directory it unlinks. -/
def EdgesKept (d d' : Disk) (S : ℕ → Prop) (call : Call) : Prop :=
  (∀ i c k, S i → d.next i c = some k → d'.next i c = some k) ∨
  ∃ m, call.Unlinks d m ∧ (∀ c, ¬ IsDot c → d.next m c = none) ∧
    ∀ i c k, S i → d.next i c = some k → k ≠ m → d'.next i c = some k

/-- What a sound call does to a settled disk on which inode `n` is the next. -/
inductive Effect (d : Disk) (S : ℕ → Prop) (n : ℕ) : Call → Disk → Prop
  | refusedCreate {path : CString} {type : FileType} {name : NameBuf} {stack : ℕ → Bytes 64}
      (hno : ¬ Makes d path type name) :
      Effect d S n (.create path type name stack) d
  | refusedDelete {path : CString} {type : FileType} {name : NameBuf}
      (hno : ¬ Deletes d path type name) :
      Effect d S n (.delete path type name) d
  | file {path : CString} {name : NameBuf} {stack : ℕ → Bytes 64} (hn : n < 80) :
      Effect d S n (.create path .fileT name stack) (d.takeInode (freshInode .fileT 1) n)
  | directory {path : CString} {name : NameBuf} {stack : ℕ → Bytes 64} {d' : Disk} (p : ℕ)
      (name' : NameBuf) (hmakes : Makes d path .directoryT name)
      (hparent : pathLookupParent d path name = .ok (some (d.inode p), name')) (hp : S p)
      (hdir : (d.inode p).type = .directoryT) (hnew : d.next p name'.cstr = none) (hn : n < 80)
      (hall : ∀ e ∈ d.entries (d.inode p), e.valid = true) (hmade : Made d d' S p n name') :
      Effect d S n (.create path .directoryT name stack) d'
  | removed {path : CString} {type : FileType} {name : NameBuf} {d' : Disk} (p : ℕ)
      (name' : NameBuf) (j k : ℕ) (x : Dirent)
      (hdel : Deletes d path type name)
      (hparent : pathLookupParent d path name = .ok (some (d.inode p), name')) (hp : S p)
      (hdir : (d.inode p).type = .directoryT) (hnext : d.next p name'.cstr = some j) (hj : S j)
      (hempty : ∀ e ∈ d.entries (d.inode j), e.valid = true → IsDot e.key)
      (hdot : ¬ IsDot name'.cstr) (hx : (d.entries (d.inode p))[k]? = some x)
      (hxv : x.valid = true) (hxk : x.key = name'.cstr) (hremoved : Removed d d' S p j k) :
      Effect d S n (.delete path type name) d'

namespace Settled

theorem takeFile (h : Settled d S n) (hn : n < 80) :
    Settled (d.takeInode (freshInode .fileT 1) n) (fun j => S j ∨ j = n) (n + 1) ∧
      ∀ i c, S i → (d.takeInode (freshInode .fileT 1) n).next i c = d.next i c := by
  have hwf := h.tree.nav.wf
  have hSn : ¬ S n := fun hS => absurd (h.tree.budget.lt n hS) (lt_irrefl n)
  have hother := fun j hj => takeInode_other (j := j) hwf (freshInode .fileT 1) hn hSn hj
  have hself := Disk.inode_takeInode d (freshInode .fileT 1) hn hn
  rw [if_pos rfl] at hself
  refine ⟨⟨h.tree.takeFile hn, ?_⟩, ?_⟩
  · rintro j (hj | rfl) hdir
    · rw [(hother j hj).1] at hdir
      rw [(hother j hj).2]
      exact h.blank j hj hdir
    · rw [hself] at hdir
      contradiction
  · intro j c hj
    exact next_congr (by rw [(hother j hj).1]) (hother j hj).2

theorem made (h : Settled d S n) (hn : n < 80) (hp : S p) (hdir : (d.inode p).type = .directoryT)
    {name' : NameBuf} (hnew : d.next p name'.cstr = none)
    (hall : ∀ e ∈ d.entries (d.inode p), e.valid = true) (hmade : Made d d' S p n name') :
    Settled d' (fun j => S j ∨ j = n) (n + 1) := by
  refine ⟨hmade.tree h.tree hn hp hdir hnew, ?_⟩
  rintro j (hj | rfl) hjdir e he hv
  · by_cases hjp : j = p
    · rw [hjp, hmade.parentEntries] at he
      rcases List.mem_append.mp he with he | he
      · rw [hall e he] at hv
        contradiction
      · rw [List.mem_singleton.mp he] at hv
        contradiction
    · rw [hmade.type hdir hj] at hjdir
      rw [(hmade.other j hj hjp).2] at he
      exact h.blank j hj hjdir e he hv
  · rw [hmade.childEntries] at he
    rcases List.mem_pair.mp he with rfl | rfl
    · contradiction
    · contradiction

theorem effect (h : Settled d S n) {call : Call} {r : ℤ} (hok : call.Sound d)
    (hstep : call.exec d = .ok (r, d')) : Effect d S n call d' := by
  have ht := h.tree
  cases call with
  | create path type name stack =>
    change fsCreate d path type name stack = _ at hstep
    rcases fsCreate_cases ht path type name stack with ⟨hno, hrun⟩ | ⟨f, -, hrun⟩ | ⟨hmakes, p, name',
      hparent, hp, hdir, hnew, hn, ⟨rfl, hrun⟩ | ⟨rfl, hrun⟩⟩
    · rw [hrun] at hstep
      obtain ⟨-, rfl⟩ := Exec.ok_inj hstep
      exact .refusedCreate hno
    · rw [hrun] at hstep
      contradiction
    · rw [hrun] at hstep
      obtain ⟨-, rfl⟩ := Exec.ok_inj hstep
      exact .file hn
    · have hall := hok hmakes rfl _ _ hparent
      obtain ⟨d₁, hlink, hmade⟩ := linkDirectory_spec ht hn hp hdir name' hnew hall stack
      rw [hrun, hlink] at hstep
      obtain ⟨-, rfl⟩ := Exec.ok_inj hstep
      exact .directory p name' hmakes hparent hp hdir hnew hn hall hmade
  | delete path type name =>
    change fsDelete d path type name = _ at hstep
    rcases fsDelete_cases ht path type name with ⟨hno, hrun⟩ | ⟨f, -, hrun⟩ | ⟨hdel, -⟩
    · rw [hrun] at hstep
      obtain ⟨-, rfl⟩ := Exec.ok_inj hstep
      exact .refusedDelete hno
    · rw [hrun] at hstep
      contradiction
    · -- the name that is looked up is not that of a hole
      obtain ⟨p, name', j, k, x, d₁, hparent, hp, hdir, hnext, hj, -, hempty, hdot, hx, hxv, hxk, hrun,
        hremoved⟩ := fsDelete_deletes ht hdel (by
          intro p name' hparent hp hdir e he hkey
          by_contra hv
          have hv : e.valid = false := by simpa using hv
          have hnil := hkey.symm.trans (h.blank p hp hdir e he hv)
          obtain ⟨q, hq, -, hpq, ⟨hcs, rfl, rfl⟩ | ⟨cs, c, hcs, -, rfl⟩⟩ := ht.lookupParent hparent
          · rw [hpq] at he
            rw [hok hcs hnil e he] at hv
            contradiction
          · have hc : name'.cstr ∈ components path.bytes := by simp [hcs]
            exact (mem_components hc).1 hnil)
      rw [hrun] at hstep
      obtain ⟨-, rfl⟩ := Exec.ok_inj hstep
      exact .removed p name' j k x hdel hparent hp hdir hnext hj hempty hdot hx hxv hxk hremoved

end Settled

/-- Every effect leaves a settled disk, and keeps the edges that the call does not unlink. -/
theorem Effect.settled {call : Call} (heffect : Effect d S n call d') (h : Settled d S n) :
    ∃ S' n', Settled d' S' n' ∧ EdgesKept d d' S call := by
  have ht := h.tree
  cases heffect with
  | refusedCreate _ => exact ⟨S, n, h, .inl fun _ _ _ _ hnext => hnext⟩
  | refusedDelete _ => exact ⟨S, n, h, .inl fun _ _ _ _ hnext => hnext⟩
  | file hn =>
    obtain ⟨hset, hedges⟩ := h.takeFile hn
    exact ⟨_, _, hset, .inl fun i c k hi hik => by rw [hedges i c hi, hik]⟩
  | directory p name' _ hparent hp hdir hnew hn hall hmade =>
    exact ⟨_, _, h.made hn hp hdir hnew hall hmade,
      .inl fun i c k hi hik => hmade.next_old hn hdir hnew hi hik⟩
  | removed p name' j k x hdel hparent hp hdir hnext hj hempty hdot hx hxv hxk hremoved =>
    have hxdot : ¬ IsDot x.key := by rwa [hxk]
    have hxnext : d.next p x.key = some j := by rw [hxk, hnext]
    refine ⟨_, n, ⟨hremoved.tree ht hp hdir hx hxv hxdot hxnext hempty, ?_⟩, .inr ⟨j, ⟨hdel, _, _,
      hparent, ?_⟩, ?_, ?_⟩⟩
    · rintro i ⟨hi, -⟩ hidir e he hv
      rw [hremoved.type_eq (ht.nav.wf.lt i hi)] at hidir
      by_cases hip : i = p
      · rw [hip, hremoved.slots] at he
        rcases mem_set_hole he with rfl | ⟨l, -, hl⟩
        · simp
        · exact h.blank p hp hdir e (List.mem_of_getElem? hl) hv
      · rw [hremoved.other i hi hip] at he
        exact h.blank i hi hidir e he hv
    · rw [ht.nav.wf.uintOf_inum hp, ht.nav.dirLookup hp, hnext]
    · exact fun c hc => next_of_empty hempty hc
    · intro i c m hi him hmj
      rw [hremoved.next ht hp hdir hx hxv hi, if_neg, him]
      rintro ⟨rfl, rfl⟩
      rw [hxnext, Option.some.injEq] at him
      exact hmj him.symm

namespace Settled

/-- A create is refused when the normal form of its path leads somewhere. -/
theorem create_refused (h : Settled d S n) (hpath : Legal path) {cs : List (List UInt8)}
    (hcs : components path.bytes = cs ++ [c])
    (hw : Walk.walk d.next 0 (Walk.normalize dotName dotDotName cs ++ [c]) = some j)
    (type : FileType) (name : NameBuf) (stack : ℕ → Bytes 64) :
    fsCreate d path type name stack = .ok (-1, d) := by
  have ht := h.tree
  obtain ⟨cs', c', name', hcs', hparent, hkey⟩ := ht.nav.lookupParent_legal hpath name
  obtain ⟨rfl, hc⟩ := List.append_inj' (hcs'.symm.trans hcs) rfl
  obtain rfl : c' = c := by simpa using hc
  rcases fsCreate_cases ht path type name stack with ⟨-, hrun⟩ | ⟨f, hfault, -⟩ | ⟨-, p, name'',
    hparent', hp, hdir, hnew, -, -⟩
  · exact hrun
  · rw [hparent] at hfault
    contradiction
  · -- the parent that is found is the one the normal form leads through
    rw [hparent] at hparent'
    obtain ⟨hq, rfl⟩ := Exec.ok_inj hparent'
    obtain ⟨q, hwq, hq⟩ := Option.bind_eq_some_iff.mp hq
    split_ifs at hq
    have hSq := ht.nav.closed.walk ht.nav.root hwq
    obtain rfl := ht.nav.wf.inode_inj hSq hp (Option.some.inj hq)
    rw [hkey (by rw [hwq]; exact Option.some_ne_none q)] at hnew
    rw [Walk.walk_concat, ht.graph.dotted.walk_normalize hwq, Option.bind_some, hnew] at hw
    contradiction

/-- A path without dots keeps leading to an inode until that is unlinked. -/
theorem run_walk (h : Settled d S n) {cs : List (List UInt8)}
    (hcs : Walk.DotFree dotName dotDotName cs) (hw : Walk.walk d.next 0 cs = some j)
    (hrun : Run (fun d call => call.Sound d ∧ ¬ call.Unlinks d j) d d') :
    ∃ S' n', Settled d' S' n' ∧ Walk.walk d'.next 0 cs = some j := by
  apply hrun.invariant (I := fun d => ∃ S n, Settled d S n ∧ Walk.walk d.next 0 cs = some j)
    ⟨S, n, h, hw⟩
  rintro d call r d' ⟨S, n, hset, hw⟩ ⟨hsound, hstays⟩ hstep
  have hclosed := hset.tree.nav.closed
  have hroot := hset.tree.nav.root
  obtain ⟨S', n', hset', hkept | ⟨m, hm, hleaf, hkept⟩⟩ := (hset.effect hsound hstep).settled hset
  · exact ⟨S', n', hset', Walk.walk_mono hclosed hkept hroot hw⟩
  · have hjm : j ≠ m := by
      rintro rfl
      exact hstays hm
    refine ⟨S', n', hset', Walk.walk_cut hclosed hkept ?_ hroot hw hjm⟩
    intro c hc
    exact hleaf c fun hdot => hdot.elim (hcs c hc).1 (hcs c hc).2

end Settled

theorem Run.settled (hboot : Booted d₀) (hrun : Run (fun d call => call.Sound d) d₀ d) :
    ∃ S n, Settled d S n := by
  apply hrun.invariant (I := fun d => ∃ S n, Settled d S n) ⟨_, _, hboot.rootOnly.settled⟩
  rintro d call r d' ⟨S, n, hset⟩ hsound hstep
  obtain ⟨S', n', hset', -⟩ := (hset.effect hsound hstep).settled hset
  exact ⟨S', n', hset'⟩

/-- The path resolves to an inode of this type that was free on the old disk `d`. -/
def Finds (d d' : Disk) (path : CString) (type : FileType) (j : ℕ) : Prop :=
  d.inodeBit j = false ∧ (d'.inode j).inum.toInt = j ∧ (d'.inode j).type = type ∧
    ∀ name, pathLookup d' path name = .ok (some (d'.inode j))

/-- Every later create of the path is refused, until a call removes the entry of the inode. -/
def StaysTaken (d' : Disk) (path : CString) (j : ℕ) : Prop :=
  ∀ d'', Run (fun d call => call.Sound d ∧ ¬ call.Unlinks d j) d' d'' →
    ∀ type name stack, fsCreate d'' path type name stack = .ok (-1, d'')

/-- In runs that never rely on an invalidated slot, a create that returns `0` makes the path
resolve to a new inode of its type, and stay taken, exactly when it makes a directory. -/
theorem create_lookup_iff (hboot : Booted d₀) (hrun : Run (fun d call => call.Sound d) d₀ d)
    (hpath : Legal path) (hsound : (Call.create path type name stack).Sound d)
    (hstep : fsCreate d path type name stack = .ok (0, d')) :
    (∃ j, Finds d d' path type j ∧ StaysTaken d' path j) ↔ type = .directoryT := by
  obtain ⟨S, n, hset⟩ := Run.settled hboot hrun
  have ht := hset.tree
  have hSn : ¬ S n := fun hS => absurd (ht.budget.lt n hS) (lt_irrefl n)
  obtain ⟨cs, c, name', hcs, hparent, hkey⟩ := ht.nav.lookupParent_legal hpath name
  rcases fsCreate_cases ht path type name stack with ⟨-, hrun⟩ | ⟨f, -, hrun⟩ | ⟨hmakes, p, name'',
    hparent', hp, hdir, hnew, hn, hcall⟩
  · rw [hrun] at hstep
    exact absurd (Exec.ok_inj hstep).1 (by decide)
  · rw [hrun] at hstep
    contradiction
  have hfound := hparent'
  rw [hparent] at hparent'
  obtain ⟨hq, rfl⟩ := Exec.ok_inj hparent'
  obtain ⟨q, hwq, hq⟩ := Option.bind_eq_some_iff.mp hq
  split_ifs at hq
  have hSq := ht.nav.closed.walk ht.nav.root hwq
  obtain rfl := ht.nav.wf.inode_inj hSq hp (Option.some.inj hq)
  have hkey := hkey (by rw [hwq]; exact Option.some_ne_none q)
  have hdot := ht.not_isDot_of_new hp hdir hnew
  rcases hcall with ⟨rfl, hrun⟩ | ⟨rfl, hrun⟩
  · -- nothing leads to a file
    refine iff_of_false ?_ (by decide)
    rintro ⟨j, ⟨-, -, -, hlookup⟩, -⟩
    rw [hrun] at hstep
    obtain ⟨hset', hedges⟩ := hset.takeFile hn
    rw [(Exec.ok_inj hstep).2] at hset' hedges
    have hstays : ∀ i c k, S i → d.next i c = some k → d'.next i c = some k :=
      fun i c k hi hik => (hedges i c hi).trans hik
    have hwq' := Walk.walk_mono ht.nav.closed hstays ht.nav.root hwq
    have hlookup := hlookup name
    rw [hset'.tree.lookup_legal hpath, hcs, Walk.walk_concat, hwq', Option.bind_some,
      hedges q c hSq, ← hkey, hnew, Option.map_none] at hlookup
    cases hlookup
  · -- the new entry leads to the new directory
    refine iff_of_true ?_ rfl
    have hall := hsound hmakes rfl _ _ hfound
    obtain ⟨d₁, hlink, hmade⟩ := linkDirectory_spec ht hn hp hdir name' hnew hall stack
    rw [hrun, hlink] at hstep
    rw [(Exec.ok_inj hstep).2] at hmade
    have hset' := hset.made hn hp hdir hnew hall hmade
    have hnext := fun i hi c => hmade.next (j := i) hn hdir hnew hi c
    have hstays : ∀ i c k, S i → d.next i c = some k → d'.next i c = some k :=
      fun i c k hi hik => hmade.next_old hn hdir hnew hi hik
    have hedge : d'.next q c = some n := by rw [hnext q hp, if_pos ⟨rfl, hkey.symm⟩]
    have hwq' := Walk.walk_mono ht.nav.closed hstays ht.nav.root hwq
    refine ⟨n, ⟨?_, hset'.tree.nav.wf.inum n (.inr rfl), hmade.childType, ?_⟩, ?_⟩
    · by_contra hbit
      have := (ht.bits n hn).mp (by simpa using hbit)
      omega
    · intro buf
      rw [hset'.tree.lookup_legal hpath, hcs, Walk.walk_concat, hwq', Option.bind_some, hedge]
      rfl
    · -- later on the walk along the normal form is what counts
      intro d'' hrun''
      have hfree := Walk.dotFree_normalize dotName dotDotName (cs ++ [c])
      have hnorm : Walk.normalize dotName dotDotName (cs ++ [c]) =
          Walk.normalize dotName dotDotName cs ++ [c] := Walk.normalize_concat
        (fun h => hdot (.inl (hkey.trans h))) (fun h => hdot (.inr (hkey.trans h)))
      have hw : Walk.walk d'.next 0 (Walk.normalize dotName dotDotName (cs ++ [c])) = some n := by
        rw [hnorm, Walk.walk_concat, hset'.tree.graph.dotted.walk_normalize hwq', Option.bind_some, hedge]
      obtain ⟨S'', n'', hset'', hw''⟩ := hset'.run_walk hfree hw hrun''
      rw [hnorm] at hw''
      exact hset''.create_refused hpath hcs hw''

/-- Making the first directory. -/
theorem create_lookup_first : ∃ d₀ d, Booted d₀ ∧ mkdirA.exec d₀ = .ok (0, d) ∧
    ((∃ j, Finds d₀ d pathA .directoryT j ∧ StaysTaken d pathA j) ↔
      FileType.directoryT = .directoryT) := by
  obtain ⟨d₀, hboot⟩ := exists_booted
  obtain ⟨d, -, -, hstep, -⟩ := mkdirA_spec hboot.rootOnly
  have hsound : mkdirA.Sound d₀ := by
    intro _ _ dirInode name' hparent e he
    obtain ⟨p, hp, hdir, rfl, -⟩ := hboot.rootOnly.tree.lookupParent hparent
    exact hboot.rootOnly.noHoles p hp hdir e he
  exact ⟨d₀, d, hboot, hstep, create_lookup_iff hboot .refl legal_pathA hsound hstep⟩

/-- `fs_create("/a", FILE_T)` in a new file system returns `0`, and `/a` does not resolve. -/
theorem createFile_not_found : ∃ d₀ d, Booted d₀ ∧
    fsCreate d₀ pathA .fileT (Bytes.zero 59) (fun _ => Bytes.zero 64) = .ok (0, d) ∧
    (∀ name, pathLookup d pathA name = .ok none) ∧ ¬ ∃ j, Finds d₀ d pathA .fileT j := by
  obtain ⟨d₀, hboot⟩ := exists_booted
  have hd := hboot.rootOnly
  have hcomps : components pathA.bytes = [] ++ [[97]] := by decide
  have hnew : d₀.next 0 [97] = none := by rw [hd.next, if_neg (by decide)]
  obtain ⟨_, -, hrun⟩ := hd.tree.create_new legal_pathA hcomps rfl hd.type hnew
    (by decide) (.inl rfl) (Bytes.zero 59) fun _ => Bytes.zero 64
  obtain ⟨hset, hedges⟩ := hd.settled.takeFile (by decide)
  rw [if_neg (by decide)] at hrun
  have hnone : ∀ name, pathLookup (d₀.takeInode (freshInode .fileT 1) 1) pathA name = .ok none := by
    intro name
    rw [hset.tree.lookup_legal legal_pathA, hcomps, Walk.walk_concat, Walk.walk_nil, Option.bind_some,
      hedges 0 _ Nat.one_pos, hnew]
    rfl
  refine ⟨d₀, _, hboot, hrun, hnone, ?_⟩
  rintro ⟨j, -, -, -, hfound⟩
  have hfound := hfound (Bytes.zero 59)
  rw [hnone] at hfound
  cases hfound

end PicoShell.Fs
