import PicoShell.Fs.DirectoryMap
import PicoShell.Lib.Walk

/-! `pathname.c`, and path resolution as a walk through the directories. -/

namespace PicoShell.Fs

/-- A C string: the bytes in front of its terminator. -/
structure CString where
  bytes : List UInt8
  noZero : (0 : UInt8) ∉ bytes

def slash : UInt8 := 47

/-- `consume`: the rest of the path and the name buffer with the leading component in it. -/
def consume (path : List UInt8) (name : NameBuf) : Exec (Option (List UInt8 × NameBuf)) :=
  match path.dropWhile (· == slash) with
  | [] => .ok none
  | s =>
    let comp := s.takeWhile (· != slash)
    -- the copy does not look at the length; the terminator needs a place as well
    if comp.length < maxFilenameLen then
      .ok (some ((s.dropWhile (· != slash)).dropWhile (· == slash),
        name.splice 0 (Bytes.ofList (comp.length + 1) comp)))
    else .error .index

/-- The loop of `resolve`; the path gets shorter in every round. -/
def resolveLoop (disk : Disk) (parent : Bool) :
    ℕ → Inode → List UInt8 → NameBuf → Exec (Option Inode × NameBuf)
  | 0, _, _, _ => .error .fuel
  | fuel + 1, curr, path, name => do
    match ← consume path name with
    | none => return (some curr, name)
    | some (path, name) =>
      if curr.type ≠ .directoryT then
        return (none, name)
      -- the name buffer holds the last component now
      else if parent ∧ path = [] then
        return (some curr, name)
      else
        let nextInum ← dirLookup disk (uintOf curr.inum.toInt) name.cstr
        if nextInum = -1 then
          return (none, name)
        else
          match inodeRead disk nextInum with
          | none => return (none, name)
          | some next => resolveLoop disk parent fuel next path name

/-- `resolve`: the inode, or `none` for the return value `-1`, and the name buffer. -/
def resolve (disk : Disk) (path : CString) (parent : Bool) (name : NameBuf) :
    Exec (Option Inode × NameBuf) :=
  if path.bytes.head? = some slash then
    match inodeRead disk rootInode with
    | none => .ok (none, name)
    | some curr => resolveLoop disk parent (path.bytes.length + 1) curr path.bytes name
  else .ok (none, name)

/-- `path_lookup`; `name` is its uninitialised local buffer. -/
def pathLookup (disk : Disk) (path : CString) (name : NameBuf) : Exec (Option Inode) := do
  let (inode, _) ← resolve disk path false name
  return inode

def pathLookupParent (disk : Disk) (path : CString) (name : NameBuf) :
    Exec (Option Inode × NameBuf) :=
  resolve disk path true name

def components (path : List UInt8) : List (List UInt8) :=
  (path.splitOn slash).filter (· ≠ [])

@[simp] theorem components_nil : components [] = [] := rfl

@[simp] theorem components_slash (path : List UInt8) :
    components (slash :: path) = components path := by
  rw [components, List.splitOn_cons_eq_if_modifyHead]
  simp [components]

theorem components_append_slash (path rest : List UInt8) :
    components (path ++ slash :: rest) = components path ++ components rest := by
  rw [components, List.splitOn_append_cons_self, List.filter_append]
  rfl

theorem components_replicate (n : ℕ) (path : List UInt8) :
    components (List.replicate n slash ++ path) = components path := by
  induction n with
  | zero => rfl
  | succ n ih =>
    rw [List.replicate_succ, List.cons_append, components_slash]
    exact ih

theorem components_dropWhile (path : List UInt8) :
    components (path.dropWhile (· == slash)) = components path := by
  induction path with
  | nil => rfl
  | cons b path ih =>
    by_cases hb : b = slash
    · subst hb
      rw [components_slash, List.dropWhile_cons_of_pos (by simp), ih]
    · rw [List.dropWhile_cons_of_neg (by simpa using hb)]

theorem components_of_head {path : List UInt8} (hne : path ≠ []) (h : path.head? ≠ some slash) :
    components path = path.takeWhile (· != slash) ::
      components ((path.dropWhile (· != slash)).dropWhile (· == slash)) := by
  have hfirst : path.takeWhile (· != slash) ≠ [] := by
    cases path with
    | nil => contradiction
    | cons b path =>
      rw [List.takeWhile_cons_of_pos (by simpa using h)]
      exact List.cons_ne_nil _ _
  have hno : slash ∉ path.takeWhile (· != slash) := by
    intro hmem
    have := List.mem_takeWhile_imp hmem
    simp at this
  rw [components_dropWhile]
  conv_lhs => rw [← List.takeWhile_append_dropWhile (p := (· != slash)) (l := path)]
  cases hrest : path.dropWhile (· != slash) with
  | nil =>
    rw [List.append_nil, components, List.splitOn_eq_singleton hno, List.filter_singleton]
    simp [hfirst]
  | cons b rest =>
    have hb : b = slash := by
      have := List.head_dropWhile_not (· != slash) (l := path)
        (by rw [hrest]; exact List.cons_ne_nil _ _)
      simpa [hrest] using this
    subst hb
    rw [components_slash, components, List.splitOn_append_cons_self,
      List.splitOn_eq_singleton hno, List.singleton_append,
      List.filter_cons_of_pos (by simpa using hfirst)]
    rfl

theorem mem_splitOn {path c : List UInt8} (hc : c ∈ path.splitOn slash) : ∀ b ∈ c, b ∈ path := by
  induction path generalizing c with
  | nil =>
    rw [List.splitOn_nil, List.mem_singleton] at hc
    simp [hc]
  | cons x path ih =>
    rw [List.splitOn_cons_eq_if_modifyHead] at hc
    split_ifs at hc with hx
    · rcases List.mem_cons.mp hc with rfl | hc
      · simp
      · exact fun b hb => List.mem_cons_of_mem x (ih hc b hb)
    · obtain ⟨y, ys, hsplit⟩ := List.exists_cons_of_ne_nil (List.splitOn_ne_nil slash path)
      rw [hsplit] at ih hc
      rcases List.mem_cons.mp hc with rfl | hc
      · intro b hb
        rcases List.mem_cons.mp hb with rfl | hb
        · simp
        · exact List.mem_cons_of_mem x (ih (by simp) b hb)
      · exact fun b hb => List.mem_cons_of_mem x (ih (List.mem_cons_of_mem y hc) b hb)

theorem mem_components {path c : List UInt8} (hc : c ∈ components path) :
    c ≠ [] ∧ ∀ b ∈ c, b ∈ path := by
  obtain ⟨hc, hne⟩ := List.mem_filter.mp hc
  exact ⟨by simpa using hne, mem_splitOn hc⟩

/-- The name buffer with component `c` and its terminator in front. -/
def NameBuf.put (name : NameBuf) (c : List UInt8) : NameBuf :=
  name.splice 0 (Bytes.ofList (c.length + 1) c)

theorem NameBuf.cstr_put (name : NameBuf) {c : List UInt8} (hc : (0 : UInt8) ∉ c)
    (hlen : c.length < 59) : (name.put c).cstr = c := by
  apply Bytes.cstr_eq_of_prefix _ _ hc hlen
  · intro i hi
    rw [NameBuf.put, Bytes.get_splice_inside _ _ (by omega) (by omega) (by omega),
      Bytes.get_of_lt _ (by omega)]
    simp [Bytes.ofList, hi]
  · rw [NameBuf.put, Bytes.get_splice_inside _ _ (by omega) (by omega) (by omega),
      Bytes.get_of_lt _ (by omega)]
    simp [Bytes.ofList]

/-- `consume` takes the components one by one. -/
theorem consume_eq (path : List UInt8) (name : NameBuf) :
    (components path = [] ∧ consume path name = .ok none) ∨
    ∃ c cs rest, components path = c :: cs ∧ components rest = cs ∧ (rest = [] ↔ cs = []) ∧
      rest.length < path.length ∧ (∀ b ∈ rest, b ∈ path) ∧
      consume path name = if c.length < 59 then .ok (some (rest, name.put c)) else .error .index := by
  rw [← components_dropWhile path]
  have hhead : ∀ l : List UInt8, l.dropWhile (· == slash) ≠ [] →
      (l.dropWhile (· == slash)).head? ≠ some slash := by
    intro l hne hh
    have := List.head_dropWhile_not (· == slash) hne
    rw [List.head?_eq_some_head hne, Option.some.injEq] at hh
    simp [hh] at this
  cases hs : path.dropWhile (· == slash) with
  | nil =>
    refine .inl ⟨rfl, ?_⟩
    rw [consume, hs]
  | cons b s =>
    have hne : path.dropWhile (· == slash) ≠ [] := by simp [hs]
    have hb := hhead path hne
    rw [hs] at hb
    refine .inr ⟨_, _, _, components_of_head (List.cons_ne_nil b s) hb, rfl, ?_, ?_, ?_, ?_⟩
    · constructor
      · intro h
        rw [h, components_nil]
      · intro h
        by_contra hrest
        rw [components_of_head hrest (hhead _ hrest)] at h
        contradiction
    · have hle := List.length_dropWhile_le (· == slash) path
      have hle₁ := List.length_dropWhile_le (· != slash) s
      have hle₂ := List.length_dropWhile_le (· == slash) (s.dropWhile (· != slash))
      rw [hs, List.length_cons] at hle
      rw [List.dropWhile_cons_of_pos (by simpa using hb)]
      omega
    · intro x hx
      have hx := (List.dropWhile_suffix _).subset ((List.dropWhile_suffix _).subset hx)
      rw [← hs] at hx
      exact (List.dropWhile_suffix _).subset hx
    -- `consume` copies while the name buffer has room for the terminator.
    · rw [consume, hs]
      rfl

/-- One round of `resolve` on a component: the inode that directory `x` has under it. -/
def lookupIn (disk : Disk) (x : Inode) (c : List UInt8) : Exec (Option Inode) :=
  if x.type ≠ .directoryT then .ok none
  else do
    let nextInum ← dirLookup disk (uintOf x.inum.toInt) c
    if nextInum = -1 then return none else return inodeRead disk nextInum

/-- What `resolve` does with the components that are left, from inode `x` on. -/
def followIn (disk : Disk) (parent : Bool) : Inode → List (List UInt8) → NameBuf →
    Exec (Option Inode × NameBuf)
  | x, [], name => .ok (some x, name)
  | x, c :: cs, name =>
    if 59 ≤ c.length then .error .index
    else if x.type ≠ .directoryT then .ok (none, name.put c)
    else if parent ∧ cs = [] then .ok (some x, name.put c)
    else do
      match ← lookupIn disk x c with
      | none => return (none, name.put c)
      | some y => followIn disk parent y cs (name.put c)

/-- Parsing and walking can be separated, on every disk. -/
theorem resolveLoop_components (d : Disk) (parent : Bool) : ∀ (fuel : ℕ) (x : Inode)
    (path : List UInt8) (name : NameBuf), (0 : UInt8) ∉ path → path.length < fuel →
      resolveLoop d parent fuel x path name = followIn d parent x (components path) name := by
  intro fuel
  induction fuel with
  | zero =>
    intro x path name hz hf
    omega
  | succ fuel ih =>
    intro x path name hz hf
    rcases consume_eq path name with ⟨hnil, hconsume⟩ |
      ⟨c, cs, rest, hcons, hrest, hempty, hlen, hsub, hconsume⟩
    · rw [hnil, resolveLoop, hconsume]
      rfl
    · have hc : c ∈ components path := by simp [hcons]
      rw [hcons, resolveLoop, hconsume, followIn]
      by_cases hlong : 59 ≤ c.length
      · rw [if_neg (by omega), if_pos hlong]
        rfl
      · rw [if_pos (by omega), if_neg hlong]
        have hkey := NameBuf.cstr_put name (fun hz' => hz ((mem_components hc).2 0 hz')) (by omega)
        simp only [bind, Except.bind, hkey, hempty, lookupIn]
        by_cases hdir : x.type ≠ .directoryT
        · rw [if_pos hdir, if_pos hdir]
          rfl
        rw [if_neg hdir, if_neg hdir, if_neg hdir]
        -- `path_lookup_parent` stops when nothing of the path is left.
        by_cases hstop : parent = true ∧ cs = []
        · rw [if_pos hstop, if_pos hstop]
          rfl
        rw [if_neg hstop, if_neg hstop]
        cases hlook : PicoShell.Fs.dirLookup d (uintOf x.inum.toInt) c with
        | error e => rfl
        | ok inum =>
          by_cases hnone : inum = -1
          · simp only [hnone, ↓reduceIte]
            rfl
          · simp only [hnone, ↓reduceIte]
            cases hread : inodeRead d inum with
            | none => rfl
            | some y =>
              simp only [pure, Except.pure]
              rw [ih y rest (name.put c) (fun hz' => hz (hsub 0 hz')) (by omega), hrest]

theorem resolve_components (d : Disk) (path : CString) (parent : Bool) (name : NameBuf) :
    resolve d path parent name =
      if path.bytes.head? = some slash then
        match inodeRead d rootInode with
        | none => .ok (none, name)
        | some root => followIn d parent root (components path.bytes) name
      else .ok (none, name) := by
  unfold resolve
  split_ifs
  · cases inodeRead d rootInode with
    | none => rfl
    | some root =>
      exact resolveLoop_components d parent _ root path.bytes name path.noZero (Nat.lt_succ_self _)
  · rfl

def Disk.next (d : Disk) (i : ℕ) (name : List UInt8) : Option ℕ :=
  if (d.inode i).type = .directoryT then
    (findEntry (d.entries (d.inode i)) name).map (·.inum.toInt.toNat)
  else none

/-- The directories of `S` hold whole entries that lead back into `S`. -/
structure Navigable (d : Disk) (S : ℕ → Prop) : Prop where
  wf : WellFormedOn d S
  root : S 0
  whole : ∀ i, S i → (d.inode i).type = .directoryT → 64 ∣ (d.inode i).len
  target : ∀ i, S i → (d.inode i).type = .directoryT → ∀ e ∈ d.entries (d.inode i),
    e.valid = true → ∃ j : ℕ, e.inum.toInt = j ∧ S j

/-- What `resolve` does with the components that are left, from inode `i` on. -/
def follow (d : Disk) (parent : Bool) : ℕ → List (List UInt8) → NameBuf →
    Exec (Option Inode × NameBuf)
  | i, [], name => .ok (some (d.inode i), name)
  | i, c :: cs, name =>
    if 59 ≤ c.length then .error .index
    else if (d.inode i).type ≠ .directoryT then .ok (none, name.put c)
    else if parent ∧ cs = [] then .ok (some (d.inode i), name.put c)
    else
      match d.next i c with
      | none => .ok (none, name.put c)
      | some j => follow d parent j cs (name.put c)

namespace Navigable

variable {d : Disk} {S : ℕ → Prop} {i j : ℕ}

theorem closed (h : Navigable d S) : Walk.Closed d.next S := by
  intro i c j hi hj
  unfold Disk.next at hj
  split_ifs at hj with hdir
  obtain ⟨e, he, hej⟩ := Option.map_eq_some_iff.mp hj
  obtain ⟨hmem, hv, -⟩ := findEntry_some he
  obtain ⟨k, hk, hSk⟩ := h.target i hi hdir e hmem hv
  rw [hk, Int.toNat_natCast] at hej
  rwa [← hej]

theorem dirLookup (h : Navigable d S) (hi : S i) (name : List UInt8) :
    dirLookup d i name = .ok (match d.next i name with | some j => (j : ℤ) | none => -1) := by
  by_cases hdir : (d.inode i).type = .directoryT
  · rw [dirLookup_eq (h.wf.ok hi).legible (h.wf.lt i hi) hdir (h.whole i hi hdir), Disk.next, if_pos hdir,
      lookupEntry]
    cases hf : findEntry (d.entries (d.inode i)) name with
    | none => rfl
    | some e =>
      obtain ⟨hmem, hv, -⟩ := findEntry_some hf
      obtain ⟨k, hk, -⟩ := h.target i hi hdir e hmem hv
      have hnat : ((e.inum.toInt.toNat : ℕ) : ℤ) = e.inum.toInt := by omega
      exact congrArg Except.ok hnat.symm
  · rw [PicoShell.Fs.dirLookup, dirInode_of_lt d (h.wf.lt i hi), if_neg hdir, Disk.next,
      if_neg hdir]

theorem lookupIn (h : Navigable d S) (hi : S i) (c : List UInt8) :
    lookupIn d (d.inode i) c = .ok ((d.next i c).map d.inode) := by
  by_cases hdir : (d.inode i).type = .directoryT
  · rw [PicoShell.Fs.lookupIn, if_neg (not_not.mpr hdir), h.wf.uintOf_inum hi, h.dirLookup hi]
    cases hnext : d.next i c with
    | none => rfl
    | some j =>
      have hread := inodeRead_of_lt d (h.wf.lt j (h.closed i c j hi hnext))
      have hne : (j : ℤ) ≠ -1 := by omega
      simp only [bind, Except.bind, hne, hread, ↓reduceIte]
      rfl
  · rw [PicoShell.Fs.lookupIn, if_pos hdir, Disk.next, if_neg hdir]
    rfl

theorem followIn_eq (h : Navigable d S) (parent : Bool) (hi : S i) (cs : List (List UInt8))
    (name : NameBuf) : followIn d parent (d.inode i) cs name = follow d parent i cs name := by
  induction cs generalizing i name with
  | nil => rfl
  | cons c cs ih =>
    rw [followIn, follow, h.lookupIn hi]
    cases hnext : d.next i c with
    | none => rfl
    | some j =>
      simp only [Option.map_some, bind, Except.bind]
      rw [ih (h.closed i c j hi hnext)]

theorem resolve_eq (h : Navigable d S) (path : CString) (parent : Bool) (name : NameBuf) :
    resolve d path parent name =
      if path.bytes.head? = some slash then follow d parent 0 (components path.bytes) name
      else .ok (none, name) := by
  have hroot : inodeRead d rootInode = some (d.inode 0) := inodeRead_of_lt d (h.wf.lt 0 h.root)
  rw [resolve_components, hroot]
  split_ifs
  · exact h.followIn_eq parent h.root _ name
  · rfl

end Navigable

section Follow

variable {d : Disk} {i p : ℕ} {cs : List (List UInt8)} {c : List UInt8} {name name' : NameBuf}

/-- Following all components of legal length is the walk along them. -/
theorem follow_walk (d : Disk) (i : ℕ) (name : NameBuf) (hshort : ∀ c ∈ cs, c.length < 59) :
    ∃ name', follow d false i cs name = .ok ((Walk.walk d.next i cs).map d.inode, name') := by
  induction cs generalizing i name with
  | nil => exact ⟨name, rfl⟩
  | cons c cs ih =>
    have hc := hshort c (by simp)
    rw [follow, if_neg (by omega), Walk.walk_cons]
    by_cases hdir : (d.inode i).type ≠ .directoryT
    · have hnone : d.next i c = none := if_neg hdir
      rw [if_pos hdir, hnone]
      exact ⟨_, rfl⟩
    rw [if_neg hdir, if_neg (by simp)]
    cases hnext : d.next i c with
    | none => exact ⟨_, rfl⟩
    | some j => exact ih j _ fun c hc => hshort c (List.mem_cons_of_mem _ hc)

/-- Only components of legal length are followed to the end. -/
theorem follow_some {x : Inode} (h : follow d false i cs name = .ok (some x, name')) :
    (∀ c ∈ cs, c.length < 59) ∧ ∃ j, Walk.walk d.next i cs = some j ∧ x = d.inode j := by
  induction cs generalizing i name with
  | nil =>
    obtain ⟨hx, -⟩ := Exec.ok_inj h
    exact ⟨by simp, i, rfl, (Option.some.inj hx).symm⟩
  | cons c cs ih =>
    rw [follow] at h
    split_ifs at h with hlong hdir hstop
    · cases h
    · simp at hstop
    · cases hnext : d.next i c with
      | none =>
        rw [hnext] at h
        cases h
      | some j =>
        rw [hnext] at h
        obtain ⟨hshort, k, hw, hx⟩ := ih h
        refine ⟨?_, k, by rw [Walk.walk_cons, hnext, Option.bind_some, hw], hx⟩
        intro b hb
        rcases List.mem_cons.mp hb with rfl | hb
        · omega
        · exact hshort b hb

/-- The parent lookup walks along all components but the last. -/
theorem follow_parent (d : Disk) (i : ℕ) (name : NameBuf) (hshort : ∀ b ∈ cs ++ [c], b.length < 59)
    (hz : (0 : UInt8) ∉ c) : ∃ name', follow d true i (cs ++ [c]) name =
      .ok ((Walk.walk d.next i cs).bind fun p =>
        if (d.inode p).type = .directoryT then some (d.inode p) else none, name') ∧
      (Walk.walk d.next i cs ≠ none → name'.cstr = c) := by
  induction cs generalizing i name with
  | nil =>
    have hc := hshort c (by simp)
    refine ⟨name.put c, ?_, fun _ => NameBuf.cstr_put name hz hc⟩
    rw [List.nil_append, follow, if_neg (by omega), Walk.walk_nil, Option.bind_some]
    by_cases hdir : (d.inode i).type = .directoryT
    · rw [if_neg (by simpa using hdir), if_pos (by simp), if_pos hdir]
    · rw [if_pos hdir, if_neg hdir]
  | cons b cs ih =>
    have hb := hshort b (by simp)
    rw [List.cons_append, follow, if_neg (by omega), Walk.walk_cons]
    by_cases hdir : (d.inode i).type ≠ .directoryT
    · have hnone : d.next i b = none := if_neg hdir
      rw [if_pos hdir, hnone]
      exact ⟨_, rfl, fun h => absurd rfl h⟩
    rw [if_neg hdir, if_neg (by simp)]
    cases hnext : d.next i b with
    | none => exact ⟨_, rfl, fun h => absurd rfl h⟩
    | some j => exact ih j _ fun c hc => hshort c (List.mem_cons_of_mem _ hc)

theorem follow_parent_some (hz : ∀ c ∈ cs, (0 : UInt8) ∉ c) {x : Inode}
    (h : follow d true i cs name = .ok (some x, name')) :
    (cs = [] ∧ x = d.inode i ∧ name' = name) ∨
    ∃ cs' c p, cs = cs' ++ [c] ∧ Walk.walk d.next i cs' = some p ∧
      (d.inode p).type = .directoryT ∧ x = d.inode p ∧ name'.cstr = c := by
  induction cs generalizing i name with
  | nil =>
    obtain ⟨hx, hn⟩ := Exec.ok_inj h
    exact .inl ⟨rfl, (Option.some.inj hx).symm, hn.symm⟩
  | cons c cs ih =>
    rw [follow] at h
    split_ifs at h with hlong hdir hstop
    · cases h
    · obtain ⟨hx, hn⟩ := Exec.ok_inj h
      obtain rfl := hstop.2
      refine .inr ⟨[], c, i, rfl, rfl, by simpa using hdir, (Option.some.inj hx).symm, ?_⟩
      rw [← hn, NameBuf.cstr_put name (hz c (by simp)) (by omega)]
    · cases hnext : d.next i c with
      | none =>
        rw [hnext] at h
        cases h
      | some j =>
        rw [hnext] at h
        rcases ih (fun c hc => hz c (List.mem_cons_of_mem _ hc)) h with
          ⟨rfl, -, -⟩ | ⟨cs', b, p, rfl, hw, hp, hx, hn⟩
        · simp at hstop
        · refine .inr ⟨c :: cs', b, p, rfl, ?_, hp, hx, hn⟩
          rw [Walk.walk_cons, hnext, Option.bind_some, hw]

end Follow

end PicoShell.Fs
