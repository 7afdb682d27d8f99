import PicoShell.Fs.CreateLookup

namespace PicoShell.Fs

variable {d : Disk} {s : State} {S : ℕ → Prop} {i : ℕ} {path : CString} {parent : Bool}
  {name name' : NameBuf} {cs : List (List UInt8)} {c : List UInt8} {x : Inode}

/-- `isalnum` in the C locale. -/
def isalnum (c : UInt8) : Bool := (48 ≤ c && c ≤ 57) || (65 ≤ c && c ≤ 90) || (97 ≤ c && c ≤ 122)

/-- `is_valid_path`: letters, digits, `_` and `/`. -/
def isValidPath (path : CString) : Bool := path.bytes.all fun c => isalnum c || c == 95 || c == slash

def badCommandErrorOccurred : String × ℤ := ("Bad command: An error occurred\n", 4)

def badcommandVariableDoesNotExist : String × ℤ :=
  ("Bad command: Variable does not exist in shell memory\n", 6)

def badcommandNotAlphanum : String × ℤ :=
  ("Bad command: Directory/file name not alphanumeric\n", 7)

def badcommandDirDoesNotExist : String × ℤ := ("Bad command: Directory name does not exist\n", 8)

/-- The path that `mkdir` and `rmdir` go on with: behind `$` it is the value of a variable. -/
def fetchPath (vstore : List UInt8 → Option CString) (path : CString) : Option CString :=
  if path.bytes.head? = some 36 then vstore path.bytes.tail else some path

/-- `mmkdir`: what it prints, its code and the disk. -/
def mmkdir (vstore : List UInt8 → Option CString) (disk : Disk) (path : CString) (name : NameBuf)
    (stack : ℕ → Bytes 64) : Exec ((String × ℤ) × Disk) :=
  match fetchPath vstore path with
  | none => .ok (badcommandVariableDoesNotExist, disk)
  | some path =>
    if !isValidPath path then .ok (badcommandNotAlphanum, disk)
    else do
      let (r, disk) ← fsCreate disk path .directoryT name stack
      return (if r ≠ 0 then badCommandErrorOccurred else ("", 0), disk)

def rmdir (vstore : List UInt8 → Option CString) (disk : Disk) (path : CString) (name : NameBuf) :
    Exec ((String × ℤ) × Disk) :=
  match fetchPath vstore path with
  | none => .ok (badcommandVariableDoesNotExist, disk)
  | some path =>
    if !isValidPath path then .ok (badcommandNotAlphanum, disk)
    else do
      let (r, disk) ← fsDelete disk path .directoryT name
      return (if r ≠ 0 then badCommandErrorOccurred else ("", 0), disk)

def cd (s : State) (dirname : CString) (name : NameBuf) (dest : Inode) :
    Exec ((String × ℤ) × State) :=
  if !isValidPath dirname then .ok (badcommandNotAlphanum, s)
  else do
    let (r, s) ← fsChdir s dirname name dest
    return (if r ≠ 0 then badcommandDirDoesNotExist else ("", 0), s)

inductive PathCommand
  | mkdir
  | rmdir
  | cd
  deriving DecidableEq

/-- The result of a command, what it prints first, and the state. -/
def PathCommand.exec (vstore : List UInt8 → Option CString) (s : State) (arg : CString)
    (name : NameBuf) (dest : Inode) (stack : ℕ → Bytes 64) :
    PathCommand → Exec ((String × ℤ) × State)
  | mkdir => do
    let (out, disk) ← mmkdir vstore s.disk arg name stack
    return (out, { s with disk := disk })
  | rmdir => do
    let (out, disk) ← PicoShell.Fs.rmdir vstore s.disk arg name
    return (out, { s with disk := disk })
  | cd => PicoShell.Fs.cd s arg name dest

/-- The command passes this path on, for the argument it was given. -/
def PathCommand.Passes (vstore : List UInt8 → Option CString) (arg path : CString)
    (cmd : PathCommand) : Prop :=
  isValidPath path = true ∧
    match cmd with
    | mkdir | rmdir => fetchPath vstore arg = some path
    | cd => arg = path

/-- The components that a walk from `i` reaches fit the name buffer with a terminator. -/
def Fits (d : Disk) (i : ℕ) (cs : List (List UInt8)) : Prop :=
  ∀ before c after, cs = before ++ c :: after → Walk.walk d.next i before ≠ none → c.length < 59

theorem fits_nil (d : Disk) (i : ℕ) : Fits d i [] := by
  intro before c after h
  simp at h

theorem fits_cons : Fits d i (c :: cs) ↔ c.length < 59 ∧ ∀ j, d.next i c = some j → Fits d j cs := by
  constructor
  · intro h
    refine ⟨h [] c cs rfl (by simp), ?_⟩
    intro j hj before b after hcs hwalk
    apply h (c :: before) b after (by rw [hcs, List.cons_append])
    rwa [Walk.walk_cons, hj, Option.bind_some]
  · rintro ⟨hc, hnext⟩ before b after hcs hwalk
    cases before with
    | nil =>
      obtain ⟨rfl, -⟩ := List.cons.inj hcs
      exact hc
    | cons a before =>
      obtain ⟨rfl, htail⟩ := List.cons.inj hcs
      rw [Walk.walk_cons] at hwalk
      cases hj : d.next i c with
      | none =>
        rw [hj] at hwalk
        contradiction
      | some j =>
        rw [hj] at hwalk
        exact hnext j hj before b after htail hwalk

/-- The walk stays inside the buffer as long as the components it reaches fit, and else leaves it. -/
theorem follow_cases (d : Disk) (parent : Bool) (i : ℕ) (cs : List (List UInt8)) (name : NameBuf) :
    (Fits d i cs ∧ ∃ r, follow d parent i cs name = .ok r) ∨
    (¬ Fits d i cs ∧ follow d parent i cs name = .error .index) := by
  induction cs generalizing i name with
  | nil => exact .inl ⟨fits_nil d i, _, rfl⟩
  | cons c cs ih =>
    rw [fits_cons, follow]
    split_ifs with hlong hdir hstop
    · exact .inr ⟨fun h => by omega, rfl⟩
    · have hnone : d.next i c = none := if_neg hdir
      rw [hnone]
      exact .inl ⟨⟨by omega, fun j hj => by contradiction⟩, _, rfl⟩
    · rw [hstop.2]
      exact .inl ⟨⟨by omega, fun j _ => fits_nil d j⟩, _, rfl⟩
    · cases hnext : d.next i c with
      | none => exact .inl ⟨⟨by omega, fun j hj => by contradiction⟩, _, rfl⟩
      | some j =>
        rcases ih j (name.put c) with ⟨hfits, hr⟩ | ⟨hno, herror⟩
        · refine .inl ⟨⟨by omega, fun k hk => ?_⟩, hr⟩
          rwa [← Option.some.inj hk]
        · exact .inr ⟨fun h => hno (h.2 j rfl), herror⟩

/-- A component that is too long ends the walk before it is reached. -/
theorem follow_rejects (hfits : Fits d i cs) (hlong : ∃ c ∈ cs, 59 ≤ c.length) (parent : Bool)
    (name : NameBuf) : ∃ name', follow d parent i cs name = .ok (none, name') := by
  induction cs generalizing i name with
  | nil => simp at hlong
  | cons c cs ih =>
    obtain ⟨hc, hnext⟩ := fits_cons.mp hfits
    have hlong : ∃ c ∈ cs, 59 ≤ c.length := by
      obtain ⟨b, hb, hlen⟩ := hlong
      rcases List.mem_cons.mp hb with rfl | hb
      · omega
      · exact ⟨b, hb, hlen⟩
    have hcs : cs ≠ [] := by
      rintro rfl
      simp at hlong
    rw [follow, if_neg (by omega)]
    split_ifs with hdir hstop
    · exact ⟨_, rfl⟩
    · exact absurd hstop.2 hcs
    · cases hj : d.next i c with
      | none => exact ⟨_, rfl⟩
      | some j => exact ih (hnext j hj) hlong _

/-- The path is not absolute, or the components that are reached fit. -/
def PathFits (d : Disk) (path : CString) : Prop :=
  path.bytes.head? = some slash → Fits d 0 (components path.bytes)

namespace Navigable

theorem resolve_cases (h : Navigable d S) (path : CString) (parent : Bool) (name : NameBuf) :
    (PathFits d path ∧ ∃ r, resolve d path parent name = .ok r) ∨
    (¬ PathFits d path ∧ resolve d path parent name = .error .index) := by
  rw [h.resolve_eq, PathFits]
  split_ifs with habs
  · simp only [habs, true_implies]
    exact follow_cases d parent 0 _ name
  · exact .inl ⟨fun hslash => absurd hslash habs, _, rfl⟩

theorem resolve_returns_iff (h : Navigable d S) (path : CString) (parent : Bool) (name : NameBuf) :
    (∃ r, resolve d path parent name = .ok r) ↔ PathFits d path := by
  rcases h.resolve_cases path parent name with ⟨hfits, hr⟩ | ⟨hno, herror⟩
  · exact iff_of_true hr hfits
  · refine iff_of_false ?_ hno
    rintro ⟨r, hr⟩
    rw [herror] at hr
    contradiction

theorem resolve_rejects (h : Navigable d S) (hfits : PathFits d path)
    (hlong : ∃ c ∈ components path.bytes, 59 ≤ c.length) (parent : Bool) (name : NameBuf) :
    ∃ name', resolve d path parent name = .ok (none, name') := by
  rw [h.resolve_eq]
  split_ifs with habs
  · exact follow_rejects (hfits habs) hlong parent name
  · exact ⟨name, rfl⟩

/-- A parent lookup that succeeds has the whole last component in its buffer. -/
theorem parent_name (h : Navigable d S) (hne : components path.bytes ≠ [])
    (hparent : pathLookupParent d path name = .ok (some x, name')) :
    (components path.bytes).getLast? = some name'.cstr := by
  rw [pathLookupParent, h.resolve_eq] at hparent
  split_ifs at hparent with habs
  · have hz : ∀ c ∈ components path.bytes, (0 : UInt8) ∉ c :=
      fun c hc hz => path.noZero ((mem_components hc).2 0 hz)
    rcases follow_parent_some hz hparent with ⟨hnil, -⟩ | ⟨before, c, p, hcs, -, -, -, hname⟩
    · exact absurd hnil hne
    · rw [hcs, hname, List.getLast?_concat]
  · cases hparent

/-- A lookup that succeeds is the walk along the whole components. -/
theorem lookup_walk (h : Navigable d S) (hlookup : pathLookup d path name = .ok (some x)) :
    (Walk.walk d.next 0 (components path.bytes)).map d.inode = some x := by
  obtain ⟨⟨o, name'⟩, hrun, hx⟩ := Exec.bind_ok hlookup
  obtain rfl : o = some x := Except.ok.inj hx
  rw [h.resolve_eq] at hrun
  split_ifs at hrun
  · obtain ⟨-, j, hwalk, rfl⟩ := follow_some hrun
    rw [hwalk, Option.map_some]
  · cases hrun

end Navigable

/-- The call that the command makes returns `-1` and changes nothing. -/
def PathCommand.Rejects (s : State) (path : CString) (name : NameBuf) (dest : Inode) :
    PathCommand → Prop
  | mkdir => ∀ type stack, fsCreate s.disk path type name stack = .ok (-1, s.disk)
  | rmdir => ∀ type, fsDelete s.disk path type name = .ok (-1, s.disk)
  | cd => fsChdir s path name dest = .ok (-1, s)

/-- The name buffers are safe on this path: nothing is written behind their end, a component that
does not fit is rejected, and names that are looked up are whole components. -/
structure NamesSafe (cmd : PathCommand) (s : State) (path : CString) (name : NameBuf)
    (dest : Inode) : Prop where
  inBounds : ∀ parent, ∃ r, resolve s.disk path parent name = .ok r
  rejects : (∃ c ∈ components path.bytes, 59 ≤ c.length) →
    pathLookup s.disk path name = .ok none ∧ cmd.Rejects s path name dest
  walks : ∀ x, pathLookup s.disk path name = .ok (some x) →
    (Walk.walk s.disk.next 0 (components path.bytes)).map s.disk.inode = some x
  whole : ∀ p n, components path.bytes ≠ [] →
    pathLookupParent s.disk path name = .ok (some p, n) →
    (components path.bytes).getLast? = some n.cstr
  distinct : ∀ (path₁ : CString) name₁ p p₁ n n₁,
    components path.bytes ≠ [] → components path₁.bytes ≠ [] →
    pathLookupParent s.disk path name = .ok (some p, n) →
    pathLookupParent s.disk path₁ name₁ = .ok (some p₁, n₁) →
    n.cstr = n₁.cstr → (components path.bytes).getLast? = (components path₁.bytes).getLast?

/-- Where `cd` rejects a path because of a long component, the inode that was never filled in is no
directory. -/
def PathCommand.StaleSafe (path : CString) (dest : Inode) (cmd : PathCommand) : Prop :=
  cmd = cd → (∃ c ∈ components path.bytes, 59 ≤ c.length) → dest.type ≠ .directoryT

theorem Navigable.rejects_iff (h : Navigable s.disk S) (hfits : PathFits s.disk path)
    (hlong : ∃ c ∈ components path.bytes, 59 ≤ c.length) (cmd : PathCommand) (dest : Inode) :
    cmd.Rejects s path name dest ↔ (cmd = .cd → dest.type ≠ .directoryT) := by
  obtain ⟨name₁, hlookup⟩ := h.resolve_rejects hfits hlong false name
  obtain ⟨name₂, hparent⟩ := h.resolve_rejects hfits hlong true name
  cases cmd with
  | mkdir =>
    apply iff_of_true _ (by simp)
    intro type stack
    rw [fsCreate]
    by_cases htype : type ≠ .fileT ∧ type ≠ .directoryT
    · exact if_pos htype
    · rw [if_neg htype, pathLookupParent, hparent]
      rfl
  | rmdir =>
    apply iff_of_true _ (by simp)
    intro type
    rw [fsDelete]
    by_cases hroot : path.bytes = [slash]
    · exact if_pos hroot
    by_cases htype : type ≠ .fileT ∧ type ≠ .directoryT
    · rw [if_neg hroot, if_pos htype]
    · rw [if_neg hroot, if_neg htype, pathLookupParent, hparent]
      rfl
  | cd =>
    -- the lookup fails, and `fs_chdir` goes on with `dest`
    have hchdir : fsChdir s path name dest =
        if dest.type ≠ .directoryT then .ok (-1, s) else .ok (0, { s with cwd := dest }) := by
      rw [fsChdir, pathLookup, hlookup]
      rfl
    simp only [PathCommand.Rejects, hchdir, true_implies]
    split_ifs with hdir
    · exact iff_of_true rfl hdir
    · refine iff_of_false ?_ hdir
      intro hok
      have := (Exec.ok_inj hok).1
      omega

theorem Navigable.names_safe_iff (h : Navigable s.disk S) (cmd : PathCommand) (path : CString)
    (name : NameBuf) (dest : Inode) :
    NamesSafe cmd s path name dest ↔ PathFits s.disk path ∧ cmd.StaleSafe path dest := by
  constructor
  · intro hsafe
    have hfits := (h.resolve_returns_iff path true name).mp (hsafe.inBounds true)
    refine ⟨hfits, fun hcd hlong => ?_⟩
    exact (h.rejects_iff hfits hlong cmd dest).mp (hsafe.rejects hlong).2 hcd
  · rintro ⟨hfits, hstale⟩
    refine ⟨fun parent => (h.resolve_returns_iff path parent name).mpr hfits, ?_,
      fun x hx => h.lookup_walk hx,
      fun p n hne hparent => h.parent_name hne hparent, ?_⟩
    · intro hlong
      obtain ⟨name₁, hlookup⟩ := h.resolve_rejects hfits hlong false name
      refine ⟨?_, (h.rejects_iff hfits hlong cmd dest).mpr fun hcd => hstale hcd hlong⟩
      rw [pathLookup, hlookup]
      rfl
    · intro path₁ name₁ p p₁ n n₁ hne hne₁ hparent hparent₁ hname
      rw [h.parent_name hne hparent, h.parent_name hne₁ hparent₁, hname]

/-- The name buffers are safe on what a command passes on just when the components it reaches fit,
and `cd` does not take a stale directory for a path that it cannot look up: the length is never
checked. -/
theorem command_names_safe_iff (h : Navigable s.disk S) (vstore : List UInt8 → Option CString)
    (cmd : PathCommand) (arg : CString) (name : NameBuf) (dest : Inode) :
    (∀ path, cmd.Passes vstore arg path → NamesSafe cmd s path name dest) ↔
      ∀ path, cmd.Passes vstore arg path → PathFits s.disk path ∧ cmd.StaleSafe path dest := by
  constructor
  · exact fun hsafe path hpath => (h.names_safe_iff cmd path name dest).mp (hsafe path hpath)
  · exact fun hfits path hpath => (h.names_safe_iff cmd path name dest).mpr (hfits path hpath)

/-- A component of 59 letters behind a directory that does not exist. -/
def deepPath : CString := ⟨slash :: 98 :: slash :: List.replicate 59 97, by decide⟩

theorem RootOnly.deepPath_fits (h : RootOnly d) : PathFits d deepPath := by
  intro _
  have hcs : components deepPath.bytes = [[98], List.replicate 59 97] := by decide
  rw [hcs, fits_cons]
  refine ⟨by decide, fun j hj => ?_⟩
  rw [h.next, if_neg (by decide)] at hj
  contradiction

/-- On the disk of `fs_init` the long component is not reached: `mkdir` rejects the path, and `cd`
does if its inode happens to be no directory. -/
theorem command_names_safe_deep : ∃ d, Booted d ∧
    NamesSafe .mkdir ⟨d, d.inode 0⟩ deepPath (Bytes.zero 59) (freshInode .directoryT 7) ∧
    NamesSafe .cd ⟨d, d.inode 0⟩ deepPath (Bytes.zero 59) (freshInode .fileT 7) ∧
    ¬ NamesSafe .cd ⟨d, d.inode 0⟩ deepPath (Bytes.zero 59) (freshInode .directoryT 7) := by
  obtain ⟨d, hboot⟩ := exists_booted
  have h : Navigable (⟨d, d.inode 0⟩ : State).disk (· < 1) := hboot.rootOnly.tree.nav
  have hfits := hboot.rootOnly.deepPath_fits
  have hlong : ∃ c ∈ components deepPath.bytes, 59 ≤ c.length := by decide
  have hvalid : isValidPath deepPath = true := by decide
  have hfetch : fetchPath (fun _ => none) deepPath = some deepPath := rfl
  refine ⟨d, hboot, ?_, ?_, ?_⟩
  · refine (command_names_safe_iff h (fun _ => none) .mkdir deepPath (Bytes.zero 59)
      (freshInode .directoryT 7)).mpr ?_ deepPath ⟨hvalid, hfetch⟩
    rintro path ⟨-, hpath⟩
    obtain rfl := Option.some.inj (hfetch.symm.trans hpath)
    exact ⟨hfits, fun hcd => by contradiction⟩
  · refine (command_names_safe_iff h (fun _ => none) .cd deepPath (Bytes.zero 59)
      (freshInode .fileT 7)).mpr ?_ deepPath ⟨hvalid, rfl⟩
    rintro path ⟨-, rfl⟩
    exact ⟨hfits, fun _ _ => by decide⟩
  · intro hsafe
    have hall := (command_names_safe_iff h (fun _ => none) .cd deepPath (Bytes.zero 59)
      (freshInode .directoryT 7)).mp (by
        rintro path ⟨-, rfl⟩
        exact hsafe)
    exact (hall deepPath ⟨hvalid, rfl⟩).2 rfl hlong rfl

def longPath : CString := ⟨slash :: List.replicate 59 97, by decide⟩

/-- `mkdir` accepts such a path, and the terminator of the component goes behind the buffer. -/
theorem mkdir_long_overruns : ∃ d, Booted d ∧
    PathCommand.mkdir.Passes (fun _ => none) longPath longPath ∧
    mmkdir (fun _ => none) d longPath (Bytes.zero 59) (fun _ => Bytes.zero 64) = .error .index ∧
    ¬ NamesSafe .mkdir ⟨d, d.inode 0⟩ longPath (Bytes.zero 59) (freshInode .fileT 0) := by
  obtain ⟨d, hboot⟩ := exists_booted
  have hvalid : isValidPath longPath = true := by decide
  have hresolve : resolve d longPath true (Bytes.zero 59) = .error .index := by
    rw [hboot.rootOnly.tree.nav.resolve_eq]
    rfl
  refine ⟨d, hboot, ⟨hvalid, rfl⟩, ?_, ?_⟩
  · have hcreate : fsCreate d longPath .directoryT (Bytes.zero 59) (fun _ => Bytes.zero 64) =
        .error .index := by
      rw [fsCreate, pathLookupParent, hresolve]
      rfl
    have hfetch : fetchPath (fun _ => none) longPath = some longPath := rfl
    simp only [mmkdir, hfetch, hvalid, hcreate]
    rfl
  · intro hsafe
    obtain ⟨r, hr⟩ := hsafe.inBounds true
    rw [hresolve] at hr
    contradiction

end PicoShell.Fs
