import PicoShell.Fs.CreateLookup

namespace PicoShell.Fs

variable {d d' : Disk} {S : ℕ → Prop} {i n : ℕ} {s s' s₀ : State} {r : ℤ} {call : Call}

/-- The calls on the disk and `cwd`; `dest` is the uninitialised local of `fs_chdir`. -/
inductive UserCall
  | chdir (path : CString) (name : NameBuf) (dest : Inode)
  | onDisk (call : Call)

def UserCall.exec (s : State) : UserCall → Exec (ℤ × State)
  | chdir path name dest => fsChdir s path name dest
  | onDisk call => do
    let (r, disk) ← call.exec s.disk
    return (r, { s with disk := disk })

/-- The inode is what the disk holds in its slot, a directory reachable from the root. -/
def Current (d : Disk) (x : Inode) : Prop :=
  ∃ i : ℕ, x.inum.toInt = i ∧ x = d.inode i ∧ Reachable d i

/-- The call makes a directory in directory `i`, or removes an entry from it. -/
def Call.Alters (d : Disk) (i : ℕ) : Call → Prop
  | .create path type name _ => type = .directoryT ∧ Makes d path type name ∧
      ∃ dirInode name', pathLookupParent d path name = .ok (some dirInode, name') ∧
        dirInode.inum.toInt = i
  | .delete path type name => Deletes d path type name ∧
      ∃ dirInode name', pathLookupParent d path name = .ok (some dirInode, name') ∧
        dirInode.inum.toInt = i

/-- The call does not rely on an invalidated slot. -/
def UserCall.Sound (s : State) : UserCall → Prop
  | .chdir _ _ _ => True
  | .onDisk call => call.Sound s.disk

/-- The call neither alters nor removes the working directory.  If it is a change to a path that
is not found, the memory of `dest` is no directory, or happens to hold a current one. -/
def UserCall.Keeps (s : State) : UserCall → Prop
  | .chdir path name dest => pathLookup s.disk path name = .ok none → dest.type = .directoryT →
      Current s.disk dest
  | .onDisk call => ∀ i : ℕ, s.cwd.inum.toInt = i → ¬ call.Alters s.disk i ∧ ¬ call.Unlinks s.disk i

/-- The parent that a call looks up is the only directory it alters. -/
theorem parent_unique (hd : WellFormedOn d S) {p : ℕ} (hp : S p) {path : CString}
    {name name' name'' : NameBuf} {x : Inode}
    (hparent : pathLookupParent d path name = .ok (some (d.inode p), name'))
    (hparent' : pathLookupParent d path name = .ok (some x, name'')) (hx : x.inum.toInt = i) :
    i = p ∧ name'' = name' := by
  obtain ⟨hpx, hname⟩ := Exec.ok_unique hparent hparent'
  obtain rfl := Option.some.inj hpx
  refine ⟨?_, hname.symm⟩
  rw [hd.inum p hp] at hx
  omega

namespace Effect

theorem inode_eq (heffect : Effect d S n call d') (h : Settled d S n) (hi : S i)
    (hkeeps : ¬ call.Alters d i) : d'.inode i = d.inode i := by
  have hwf := h.tree.nav.wf
  cases heffect with
  | refusedCreate _ => rfl
  | refusedDelete _ => rfl
  | file hn =>
    have hSn : ¬ S n := fun hS => absurd (h.tree.budget.lt n hS) (lt_irrefl n)
    exact (takeInode_other hwf (freshInode .fileT 1) hn hSn hi).1
  | directory p name' hmakes hparent hp _ _ _ _ hmade =>
    apply (hmade.other i hi _).1
    rintro rfl
    exact hkeeps ⟨rfl, hmakes, d.inode i, name', hparent, hwf.inum i hi⟩
  | removed p name' j k x hdel hparent hp _ _ _ _ _ _ _ _ hremoved =>
    apply hremoved.inode i (hwf.lt i hi)
    rintro rfl
    exact hkeeps ⟨hdel, d.inode i, name', hparent, hwf.inum i hi⟩

/-- A directory that is altered gains or loses a link. -/
theorem inode_ne (heffect : Effect d S n call d') (h : Settled d S n)
    (halters : call.Alters d i) : d'.inode i ≠ d.inode i := by
  have hwf := h.tree.nav.wf
  intro heq
  have hlinks : (d'.inode i).numLinks = (d.inode i).numLinks := by rw [heq]
  cases heffect with
  | refusedCreate hno => exact hno halters.2.1
  | refusedDelete hno => exact hno halters.1
  | file hn =>
    have hfile := halters.1
    contradiction
  | directory p name' _ hparent hp _ _ _ _ hmade =>
    obtain ⟨-, -, x, name'', hparent', hx⟩ := halters
    obtain ⟨rfl, -⟩ := parent_unique hwf hp hparent hparent' hx
    rw [hmade.parentLinks] at hlinks
    simp at hlinks
  | removed p name' j k x _ hparent hp _ _ _ _ _ _ _ _ hremoved =>
    obtain ⟨-, y, name'', hparent', hy⟩ := halters
    obtain ⟨rfl, -⟩ := parent_unique hwf hp hparent hparent' hy
    rw [hremoved.parent] at hlinks
    simp [Int32.sub_eq_add_neg] at hlinks

theorem reachable (heffect : Effect d S n call d') (h : Settled d S n) (hi : Reachable d i)
    (hkeeps : ¬ call.Unlinks d i) : Reachable d' i := by
  have ht := h.tree
  have hdown := ht.descends hi
  obtain ⟨S', n', hset', hkept | ⟨m, hm, hleaf, hkept⟩⟩ := heffect.settled h
  · apply (hset'.tree.reachable_of_descends _).2
    exact ht.descends_kept (P := fun _ => True) (fun i c j hi _ hij _ => hkept i c j hi hij)
      (fun _ _ _ _ _ _ => trivial) hdown trivial
  · have him : i ≠ m := by
      rintro rfl
      exact hkeeps hm
    apply (hset'.tree.reachable_of_descends _).2
    apply ht.descends_kept (P := fun j => j ≠ m) (fun i c j hi _ hij hj => hkept i c j hi hij hj) _
      hdown him
    rintro i c j - hc hij rfl
    rw [hleaf c hc] at hij
    contradiction

theorem not_reachable (heffect : Effect d S n call d') (h : Settled d S n)
    (hunlinks : call.Unlinks d i) : ¬ Reachable d' i := by
  have ht := h.tree
  cases heffect with
  | refusedCreate _ => exact hunlinks.elim
  | refusedDelete hno => exact absurd hunlinks.1 hno
  | file _ => exact hunlinks.elim
  | directory _ _ _ _ _ _ _ _ _ _ => exact hunlinks.elim
  | removed p name' j k x _ hparent hp hdir hnext _ hempty hdot hx hxv hxk hremoved =>
    obtain ⟨-, y, name'', hparent', hlookup⟩ := hunlinks
    obtain ⟨hpy, rfl⟩ := Exec.ok_unique hparent hparent'
    obtain rfl := Option.some.inj hpy
    rw [ht.nav.wf.uintOf_inum hp, ht.nav.dirLookup hp, hnext, Except.ok.injEq] at hlookup
    have hji : j = i := Int.ofNat.inj hlookup
    have htree := hremoved.tree ht hp hdir hx hxv (by rwa [hxk]) (by rw [hxk, hnext]) hempty
    intro hreach
    exact (htree.reachable hreach).1.2 hji.symm

end Effect

/-- What a path leads to is the current content of a slot. -/
theorem Tree.current_of_lookup (ht : Tree d S n) {path : CString} {name : NameBuf} {x : Inode}
    (hlookup : pathLookup d path name = .ok (some x)) : Current d x := by
  obtain ⟨j, hw, hj, rfl, -⟩ := ht.lookup_some hlookup
  exact ⟨j, ht.nav.wf.inum j hj, rfl, ht.closed_reachable.walk (.root ht.rootType) hw⟩

theorem Tree.chdir_current_iff (ht : Tree s.disk S n) (hcur : Current s.disk s.cwd) {path : CString}
    {name : NameBuf} {dest : Inode} (hstep : fsChdir s path name dest = .ok (r, s')) :
    s'.disk = s.disk ∧ (Current s'.disk s'.cwd ↔ (UserCall.chdir path name dest).Keeps s) := by
  obtain ⟨o, hlookup, hstep⟩ := Exec.bind_ok hstep
  by_cases hdir : (o.getD dest).type ≠ .directoryT
  · rw [if_pos hdir] at hstep
    obtain ⟨-, rfl⟩ := Exec.ok_inj hstep
    refine ⟨rfl, iff_of_true hcur ?_⟩
    intro hnone hdest
    obtain rfl : o = none := Except.ok.inj (hlookup.symm.trans hnone)
    exact absurd hdest hdir
  · rw [if_neg hdir] at hstep
    obtain ⟨-, rfl⟩ := Exec.ok_inj hstep
    refine ⟨rfl, ?_⟩
    cases o with
    | none => exact ⟨fun h _ _ => h, fun h => h hlookup (not_not.mp hdir)⟩
    | some x =>
      refine iff_of_true (ht.current_of_lookup hlookup) ?_
      intro hnone
      rw [hlookup] at hnone
      cases hnone

theorem Effect.current_iff (heffect : Effect d S n call d') (h : Settled d S n) {x : Inode}
    (hx : Current d x) : Current d' x ↔
      ∀ i : ℕ, x.inum.toInt = i → ¬ call.Alters d i ∧ ¬ call.Unlinks d i := by
  obtain ⟨i, hi, rfl, hreach⟩ := hx
  have hslot : ∀ j : ℕ, (d.inode i).inum.toInt = j → j = i := fun j hj => by omega
  constructor
  · rintro ⟨k, hk, heq, hreach'⟩ j hj
    obtain rfl := hslot j hj
    obtain rfl := hslot k hk
    exact ⟨fun halters => heffect.inode_ne h halters heq.symm,
      fun hunlinks => heffect.not_reachable h hunlinks hreach'⟩
  · intro hkeeps
    obtain ⟨halters, hunlinks⟩ := hkeeps i hi
    exact ⟨i, hi, (heffect.inode_eq h (h.tree.reachable hreach).1 halters).symm,
      heffect.reachable h hreach hunlinks⟩

/-- A sound call keeps the working directory current exactly if it meets the condition. -/
theorem UserCall.current_iff {call : UserCall} (h : Settled s.disk S n) (hcur : Current s.disk s.cwd)
    (hsound : call.Sound s) (hstep : call.exec s = .ok (r, s')) :
    (∃ S' n', Settled s'.disk S' n') ∧ (Current s'.disk s'.cwd ↔ call.Keeps s) := by
  cases call with
  | chdir path name dest =>
    obtain ⟨hdisk, hiff⟩ := h.tree.chdir_current_iff hcur hstep
    rw [hdisk] at hiff ⊢
    exact ⟨⟨S, n, h⟩, hiff⟩
  | onDisk call =>
    obtain ⟨⟨r', d'⟩, hexec, hstep⟩ := Exec.bind_ok hstep
    obtain ⟨-, rfl⟩ := Exec.ok_inj hstep
    have heffect := h.effect hsound hexec
    obtain ⟨S', n', hset', -⟩ := heffect.settled h
    exact ⟨⟨S', n', hset'⟩, heffect.current_iff h hcur⟩

def Follows (ok : State → UserCall → Prop) (s s' : State) : Prop :=
  ∃ call r, ok s call ∧ call.exec s = .ok (r, s')

/-- In every run of calls after `fs_init` that meet the condition, whatever they return, `cwd` is
what the disk holds in its slot, a directory reachable from the root. -/
theorem run_current {cwd : Inode} {buf : Block} {stack : ℕ → Bytes 64}
    (hinit : fsInit ⟨.zeroed, cwd⟩ buf stack = .ok (0, s₀))
    (hrun : Relation.ReflTransGen (Follows fun s call => call.Sound s ∧ call.Keeps s) s₀ s) :
    Current s.disk s.cwd := by
  obtain ⟨d, hinit', honly⟩ := fsInit_spec cwd buf stack
  obtain ⟨-, rfl⟩ := Exec.ok_unique hinit' hinit
  have hinv : (∃ S n, Settled s.disk S n) ∧ Current s.disk s.cwd := by
    induction hrun with
    | refl =>
      have hset := honly.settled
      exact ⟨⟨_, _, hset⟩, 0, hset.tree.nav.wf.inum 0 hset.tree.nav.root, rfl, .root honly.type⟩
    | tail _ hstep ih =>
      obtain ⟨⟨S, n, hset⟩, hcur⟩ := ih
      obtain ⟨call, r, ⟨hsound, hkeeps⟩, hexec⟩ := hstep
      obtain ⟨hset', hiff⟩ := UserCall.current_iff hset hcur hsound hexec
      exact ⟨hset', hiff.mpr hkeeps⟩
  exact hinv.2

/-- Making the file `/a`. -/
theorem run_current_first : ∃ s₀ s,
    fsInit ⟨.zeroed, freshInode .unusedT 0⟩ (Bytes.zero 1024) (fun _ => Bytes.zero 64) = .ok (0, s₀) ∧
    (UserCall.onDisk (.create pathA .fileT (Bytes.zero 59) fun _ => Bytes.zero 64)).exec s₀ =
      .ok (0, s) ∧ Current s.disk s.cwd := by
  obtain ⟨d, hinit, honly⟩ := fsInit_spec (freshInode .unusedT 0) (Bytes.zero 1024)
    fun _ => Bytes.zero 64
  have hnew : d.next 0 [97] = none := by rw [honly.next, if_neg (by decide)]
  have hcomps : components pathA.bytes = [] ++ [[97]] := by decide
  obtain ⟨name', -, hrun⟩ := honly.tree.create_new legal_pathA hcomps rfl honly.type hnew (by decide)
    (.inl rfl) (Bytes.zero 59) fun _ => Bytes.zero 64
  rw [if_neg (by decide)] at hrun
  have hexec : (UserCall.onDisk (.create pathA .fileT (Bytes.zero 59) fun _ => Bytes.zero 64)).exec
      ⟨d, d.inode 0⟩ = .ok (0, ⟨d.takeInode (freshInode .fileT 1) 1, d.inode 0⟩) := by
    simp only [UserCall.exec, Call.exec, hrun, bind, Except.bind]
    rfl
  refine ⟨_, _, hinit, hexec, run_current hinit (.single ⟨_, 0, ⟨?_, ?_⟩, hexec⟩)⟩
  · intro _ hdir
    contradiction
  · intro i _
    refine ⟨fun halters => ?_, id⟩
    have hdir := halters.1
    contradiction

/-- Making the directory `/a` raises the link count of the root on the disk only. -/
theorem mkdirA_not_current : ∃ s₀ s,
    fsInit ⟨.zeroed, freshInode .unusedT 0⟩ (Bytes.zero 1024) (fun _ => Bytes.zero 64) = .ok (0, s₀) ∧
    (UserCall.onDisk mkdirA).exec s₀ = .ok (0, s) ∧ ¬ Current s.disk s.cwd := by
  obtain ⟨d, hinit, honly⟩ := fsInit_spec (freshInode .unusedT 0) (Bytes.zero 1024)
    fun _ => Bytes.zero 64
  obtain ⟨d', name', -, hrun, hmade⟩ := mkdirA_spec honly
  have hexec : (UserCall.onDisk mkdirA).exec ⟨d, d.inode 0⟩ = .ok (0, ⟨d', d.inode 0⟩) := by
    simp only [UserCall.exec, hrun, bind, Except.bind]
    rfl
  refine ⟨_, _, hinit, hexec, ?_⟩
  rintro ⟨i, hi, heq, -⟩
  have hroot := honly.tree.nav.wf.inum 0 honly.tree.nav.root
  obtain rfl : i = 0 := by
    rw [hroot] at hi
    omega
  have hlinks := hmade.parentLinks
  rw [← heq] at hlinks
  simp at hlinks

end PicoShell.Fs
