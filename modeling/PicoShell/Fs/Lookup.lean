import PicoShell.Fs.Boot

namespace PicoShell.Fs

variable {d : Disk} {S : ℕ → Prop} {i : ℕ} {x : Inode} {cs : List (List UInt8)} {c : List UInt8}
  {name : NameBuf} {r : Option Inode}

/-- Look up one more component; a lookup that failed stays failed. -/
def lookupStep (disk : Disk) : Option Inode → List UInt8 → Exec (Option Inode)
  | none, _ => .ok none
  | some x, c => lookupIn disk x c

/-- The left fold of the lookups over the components, from the root inode on. -/
def lookupAll (disk : Disk) (cs : List (List UInt8)) : Exec (Option Inode) :=
  cs.foldlM (lookupStep disk) (inodeRead disk rootInode)

theorem foldlM_lookupStep_none (d : Disk) (cs : List (List UInt8)) :
    cs.foldlM (lookupStep d) none = .ok none := by
  induction cs with
  | nil => rfl
  | cons c cs ih => exact ih

theorem lookupAll_concat (d : Disk) (cs : List (List UInt8)) (c : List UInt8) :
    lookupAll d (cs ++ [c]) = lookupAll d cs >>= fun x => lookupStep d x c := by
  rw [lookupAll, List.foldlM_append]
  simp only [List.foldlM_cons, List.foldlM_nil, bind_pure]
  rfl

theorem followIn_fold (d : Disk) (x : Inode) (name : NameBuf) (hshort : ∀ c ∈ cs, c.length < 59) :
    Prod.fst <$> followIn d false x cs name = cs.foldlM (lookupStep d) (some x) := by
  induction cs generalizing x name with
  | nil => rfl
  | cons c cs ih =>
    have hc := hshort c List.mem_cons_self
    rw [followIn, if_neg (by omega), List.foldlM_cons]
    have hstep : lookupStep d (some x) c = lookupIn d x c := rfl
    rw [hstep]
    by_cases hdir : x.type ≠ .directoryT
    · rw [if_pos hdir, lookupIn, if_pos hdir]
      exact (foldlM_lookupStep_none d cs).symm
    · rw [if_neg hdir, if_neg (by simp)]
      cases lookupIn d x c with
      | error e => rfl
      | ok y =>
        cases y with
        | none => exact (foldlM_lookupStep_none d cs).symm
        | some y => exact ih y (name.put c) fun c hc => hshort c (List.mem_cons_of_mem _ hc)

/-- The parent lookup stops at the directory before the last component. -/
theorem followIn_parent (d : Disk) (x : Inode) (name : NameBuf)
    (hshort : ∀ b ∈ cs ++ [c], b.length < 59) (hz : (0 : UInt8) ∉ c)
    (hfold : cs.foldlM (lookupStep d) (some x) = .ok r) :
    ∃ name', followIn d true x (cs ++ [c]) name =
      .ok (r.filter fun p => p.type = .directoryT, name') ∧ (r ≠ none → name'.cstr = c) := by
  induction cs generalizing x name with
  | nil =>
    obtain rfl := Except.ok.inj hfold
    have hc := hshort c (by simp)
    refine ⟨name.put c, ?_, fun _ => NameBuf.cstr_put name hz hc⟩
    rw [List.nil_append, followIn, if_neg (by omega)]
    by_cases hdir : x.type = .directoryT
    · rw [if_neg (not_not.mpr hdir), if_pos ⟨rfl, rfl⟩, Option.filter_some, if_pos (by simpa using hdir)]
    · rw [if_pos hdir, Option.filter_some, if_neg (by simpa using hdir)]
  | cons b cs ih =>
    have hb := hshort b (by simp)
    rw [List.foldlM_cons] at hfold
    have hstep : lookupStep d (some x) b = lookupIn d x b := rfl
    rw [hstep] at hfold
    rw [List.cons_append, followIn, if_neg (by omega)]
    by_cases hdir : x.type ≠ .directoryT
    · rw [lookupIn, if_pos hdir] at hfold
      obtain rfl := Except.ok.inj ((foldlM_lookupStep_none d cs).symm.trans hfold)
      rw [if_pos hdir]
      exact ⟨_, rfl, fun h => absurd rfl h⟩
    · rw [if_neg hdir, if_neg (by simp)]
      obtain ⟨y, hlook, hfold⟩ := Exec.bind_ok hfold
      rw [hlook]
      cases y with
      | none =>
        obtain rfl := Except.ok.inj ((foldlM_lookupStep_none d cs).symm.trans hfold)
        exact ⟨_, rfl, fun h => absurd rfl h⟩
      | some y => exact ih y _ (fun c hc => hshort c (List.mem_cons_of_mem _ hc)) hfold

theorem pathLookup_eq (d : Disk) (path : CString) (habs : path.bytes.head? = some slash)
    (hshort : ∀ c ∈ components path.bytes, c.length < 59) (name : NameBuf) :
    pathLookup d path name = lookupAll d (components path.bytes) := by
  have hmap : pathLookup d path name = Prod.fst <$> resolve d path false name := by
    unfold pathLookup
    rw [map_eq_pure_bind]
  rw [hmap, resolve_components, if_pos habs, lookupAll]
  cases inodeRead d rootInode with
  | none => exact (foldlM_lookupStep_none d _).symm
  | some root => exact followIn_fold d root name hshort

/-- Paths that differ in the number of slashes only: between components, in front, or at the end. -/
inductive SlashVariant : List UInt8 → List UInt8 → Prop
  | repeated (a b : List UInt8) (n : ℕ) :
      SlashVariant (a ++ slash :: b) (a ++ (List.replicate (n + 1) slash ++ b))
  | trailing (a : List UInt8) (n : ℕ) : SlashVariant a (a ++ List.replicate n slash)

theorem SlashVariant.components_eq {a b : List UInt8} (h : SlashVariant a b) :
    components b = components a := by
  cases h with
  | repeated a b n =>
    rw [List.replicate_succ, List.cons_append, components_append_slash, components_append_slash,
      components_replicate]
  | trailing a n =>
    cases n with
    | zero => simp
    | succ n =>
      have hnil := components_replicate n []
      rw [List.append_nil] at hnil
      rw [List.replicate_succ, components_append_slash, hnil, components_nil, List.append_nil]

theorem SlashVariant.head_eq {a b : List UInt8} (h : SlashVariant a b)
    (habs : a.head? = some slash) : b.head? = some slash := by
  cases h with
  | repeated a b n =>
    cases a with
    | nil => rfl
    | cons x a => exact habs
  | trailing a n =>
    cases a with
    | nil => contradiction
    | cons x a => exact habs

/-- The number of slashes changes no lookup, in either mode and on any disk. -/
theorem SlashVariant.resolve_eq {path path' : CString} (h : SlashVariant path.bytes path'.bytes)
    (habs : path.bytes.head? = some slash) (d : Disk) (parent : Bool) (name : NameBuf) :
    resolve d path' parent name = resolve d path parent name := by
  rw [resolve_components, resolve_components, if_pos habs, if_pos (h.head_eq habs), h.components_eq]

/-- The directories of `S` are whole entries in blocks of the disk, and lead back into `S`. -/
structure Searchable (d : Disk) (S : ℕ → Prop) : Prop where
  root : S 0
  number : ∀ i < 80, S i → S (uintOf (d.inode i).inum.toInt)
  legible : ∀ i < 80, S i → (d.inode i).type = .directoryT → (d.inode i).Legible
  whole : ∀ i < 80, S i → (d.inode i).type = .directoryT → 64 ∣ (d.inode i).len
  target : ∀ i < 80, S i → (d.inode i).type = .directoryT → ∀ e ∈ d.entries (d.inode i),
    e.valid = true → ∃ j : ℕ, e.inum.toInt = j ∧ j < 80 ∧ S j

theorem Navigable.searchable (h : Navigable d S) : Searchable d S where
  root := h.root
  number i _ hi := by
    rw [h.wf.uintOf_inum hi]
    exact hi
  legible i _ hi _ := (h.wf.ok hi).legible
  whole i _ hi hdir := h.whole i hi hdir
  target i _ hi hdir e he hv := by
    obtain ⟨j, hj, hSj⟩ := h.target i hi hdir e he hv
    exact ⟨j, hj, h.wf.lt j hSj, hSj⟩

namespace Searchable

theorem dirLookup (h : Searchable d S) (hi : S i) (c : List UInt8) :
    dirLookup d i c = .ok (-1) ∨ ∃ j : ℕ, dirLookup d i c = .ok j ∧ j < 80 ∧ S j := by
  by_cases hlt : i < 80
  · by_cases hdir : (d.inode i).type = .directoryT
    · rw [dirLookup_eq (h.legible i hlt hi hdir) hlt hdir (h.whole i hlt hi hdir), lookupEntry]
      cases hf : findEntry (d.entries (d.inode i)) c with
      | none => exact .inl rfl
      | some e =>
        obtain ⟨hmem, hv, -⟩ := findEntry_some hf
        obtain ⟨j, hj, hlt', hSj⟩ := h.target i hlt hi hdir e hmem hv
        exact .inr ⟨j, congrArg Except.ok hj, hlt', hSj⟩
    · left
      rw [PicoShell.Fs.dirLookup, dirInode_of_lt d hlt, if_neg hdir]
  · left
    rw [PicoShell.Fs.dirLookup, dirInode, if_pos (by simp; omega)]

theorem lookupIn (h : Searchable d S) (hlt : i < 80) (hi : S i) (c : List UInt8) :
    lookupIn d (d.inode i) c = .ok none ∨
      ∃ j, lookupIn d (d.inode i) c = .ok (some (d.inode j)) ∧ j < 80 ∧ S j := by
  unfold PicoShell.Fs.lookupIn
  split_ifs with hdir
  · exact .inl rfl
  · rcases h.dirLookup (h.number i hlt hi) c with hnone | ⟨j, hj, hjlt, hSj⟩
    · rw [hnone]
      exact .inl rfl
    · right
      have hne : (j : ℤ) ≠ -1 := by omega
      refine ⟨j, ?_, hjlt, hSj⟩
      simp only [hj, bind, Except.bind, hne, inodeRead_of_lt d hjlt, ↓reduceIte]
      rfl

/-- The fold comes to an end, at an inode of `S` if anywhere. -/
theorem lookupAll (h : Searchable d S) (cs : List (List UInt8)) : lookupAll d cs = .ok none ∨
    ∃ j, lookupAll d cs = .ok (some (d.inode j)) ∧ j < 80 ∧ S j := by
  induction cs using List.reverseRecOn with
  | nil =>
    right
    have hroot : inodeRead d rootInode = some (d.inode 0) := inodeRead_of_lt d (by decide)
    exact ⟨0, by rw [PicoShell.Fs.lookupAll, hroot]; rfl, by decide, h.root⟩
  | append_singleton cs c ih =>
    rw [lookupAll_concat]
    rcases ih with hnone | ⟨i, hi, hlt, hSi⟩
    · left
      rw [hnone]
      rfl
    · rw [hi]
      exact h.lookupIn hlt hSi c

/-- The parent lookup is the fold over all components but the last. -/
theorem pathLookupParent (h : Searchable d S) (path : CString)
    (habs : path.bytes.head? = some slash) (hshort : ∀ c ∈ components path.bytes, c.length < 59)
    (name : NameBuf) (hcomp : components path.bytes = cs ++ [c]) : ∃ r name',
      PicoShell.Fs.lookupAll d cs = .ok r ∧ pathLookupParent d path name =
        .ok (r.filter fun p => p.type = .directoryT, name') ∧ (r ≠ none → name'.cstr = c) := by
  have hz : (0 : UInt8) ∉ c := by
    intro hmem
    have hc : c ∈ components path.bytes := by simp [hcomp]
    exact path.noZero ((mem_components hc).2 0 hmem)
  have hroot : inodeRead d rootInode = some (d.inode 0) := inodeRead_of_lt d (by decide)
  have hfold : ∃ r, PicoShell.Fs.lookupAll d cs = .ok r := by
    rcases h.lookupAll cs with hnone | ⟨j, hj, -⟩
    · exact ⟨_, hnone⟩
    · exact ⟨_, hj⟩
  obtain ⟨r, hr⟩ := hfold
  have hstart := hr
  rw [PicoShell.Fs.lookupAll, hroot] at hstart
  rw [hcomp] at hshort
  obtain ⟨name', hrun, hname⟩ := followIn_parent d (d.inode 0) name hshort hz hstart
  refine ⟨r, name', hr, ?_, hname⟩
  rw [PicoShell.Fs.pathLookupParent, resolve_components, if_pos habs, hroot, hcomp]
  exact hrun

/-- A step from a directory of `S` is a lookup in its entries. -/
theorem lookupIn_iff (h : Searchable d S) (hlt : i < 80) (hi : S i) (c : List UInt8) (y : Inode) :
    PicoShell.Fs.lookupIn d (d.inode i) c = .ok (some y) ↔ (d.inode i).type = .directoryT ∧
      ∃ j : ℕ, PicoShell.Fs.dirLookup d (uintOf (d.inode i).inum.toInt) c = .ok j ∧ y = d.inode j := by
  unfold PicoShell.Fs.lookupIn
  split_ifs with hdir
  · simp [hdir]
  rcases h.dirLookup (h.number i hlt hi) c with hnone | ⟨j, hj, hjlt, -⟩
  · rw [hnone]
    constructor
    · intro hy
      cases hy
    · rintro ⟨-, j, hj, -⟩
      have := Except.ok.inj hj
      omega
  · have hne : (j : ℤ) ≠ -1 := by omega
    rw [hj]
    simp only [bind, Except.bind, hne, inodeRead_of_lt d hjlt, ↓reduceIte]
    constructor
    · intro hy
      exact ⟨not_not.mp hdir, j, rfl, (Option.some.inj (Except.ok.inj hy)).symm⟩
    · rintro ⟨-, k, hk, rfl⟩
      have hkj : j = k := Int.ofNat.inj (Except.ok.inj hk)
      rw [hkj]
      rfl

end Searchable

/-- For absolute paths whose components have at most 58 bytes: the lookup is the fold over the
components, the parent lookup the fold over all but the last, whatever slashes there are, and the
two agree on the last component. -/
theorem path_lookup_fold (h : Searchable d S) (path : CString)
    (habs : path.bytes.head? = some slash) (hshort : ∀ c ∈ components path.bytes, c.length < 59)
    (name name₁ : NameBuf) :
    (∃ r, pathLookup d path name = .ok r ∧ lookupAll d (components path.bytes) = .ok r) ∧
    (∀ path' : CString, SlashVariant path.bytes path'.bytes →
      pathLookup d path' name = pathLookup d path name ∧
        pathLookupParent d path' name₁ = pathLookupParent d path name₁) ∧
    ∀ cs c, components path.bytes = cs ++ [c] → ∃ parent name',
      pathLookupParent d path name₁ = .ok (parent, name') ∧
      (∀ p, parent = some p ↔ lookupAll d cs = .ok (some p) ∧ p.type = .directoryT) ∧
      (parent ≠ none → name'.cstr = c) ∧
      ∀ y, pathLookup d path name = .ok (some y) ↔ ∃ (p : Inode) (j : ℕ), parent = some p ∧
        dirLookup d (uintOf p.inum.toInt) name'.cstr = .ok j ∧ y = d.inode j := by
  have hlookup := pathLookup_eq d path habs hshort name
  refine ⟨?_, ?_, ?_⟩
  · rw [hlookup]
    rcases h.lookupAll (components path.bytes) with hnone | ⟨j, hj, -⟩
    · exact ⟨_, hnone, hnone⟩
    · exact ⟨_, hj, hj⟩
  · intro path' hvariant
    refine ⟨?_, hvariant.resolve_eq habs d true name₁⟩
    unfold pathLookup
    rw [hvariant.resolve_eq habs]
  -- Both lookups fold over `cs`; they differ in what they do with the last component.
  · intro cs c hcomp
    obtain ⟨r, name', hfold, hparent, hname⟩ := h.pathLookupParent path habs hshort name₁ hcomp
    refine ⟨_, name', hparent, ?_, ?_, ?_⟩
    · intro p
      rw [hfold, Option.filter_eq_some_iff, Except.ok.injEq, decide_eq_true_eq]
    · intro hsome
      apply hname
      rintro rfl
      exact hsome rfl
    · intro y
      rw [hlookup, hcomp, lookupAll_concat]
      rcases h.lookupAll cs with hnone | ⟨i, hi, hlt, hSi⟩
      · obtain rfl := Except.ok.inj (hfold.symm.trans hnone)
        rw [hnone]
        constructor
        · intro hy
          cases hy
        · rintro ⟨p, j, hp, -⟩
          cases hp
      · obtain rfl := Except.ok.inj (hfold.symm.trans hi)
        have hstep : (lookupAll d cs >>= fun x => lookupStep d x c) = lookupIn d (d.inode i) c := by
          rw [hi]
          rfl
        rw [hstep, h.lookupIn_iff hlt hSi, hname (Option.some_ne_none _)]
        simp only [Option.filter_eq_some_iff, Option.some.injEq, decide_eq_true_eq]
        constructor
        · rintro ⟨hdir, j, hj, hy⟩
          exact ⟨_, j, ⟨rfl, hdir⟩, hj, hy⟩
        · rintro ⟨p, j, ⟨rfl, hdir⟩, hj, hy⟩
          exact ⟨hdir, j, hj, hy⟩

/-- `/.` and `//.` lead from the root directory of a new disk to itself. -/
theorem path_lookup_fold_dot : ∃ d, Booted d ∧ ∀ name,
    pathLookup d ⟨[slash, slash, 46], by decide⟩ name =
      pathLookup d ⟨[slash, 46], by decide⟩ name := by
  obtain ⟨d, hboot⟩ := exists_booted
  refine ⟨d, hboot, fun name => ?_⟩
  have hall := path_lookup_fold hboot.rootOnly.tree.nav.searchable ⟨[slash, 46], by decide⟩ rfl
    (by decide) name name
  exact (hall.2.1 ⟨[slash, slash, 46], by decide⟩ (.repeated [] [46] 1)).1

end PicoShell.Fs
