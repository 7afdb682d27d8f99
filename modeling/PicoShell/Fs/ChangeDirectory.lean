import PicoShell.Fs.PathCommands

namespace PicoShell.Fs

variable {d : Disk} {S : ℕ → Prop} {i j : ℕ} {cs : List (List UInt8)} {path : CString}
  {name : NameBuf} {s : State} {dest : Inode}

/-- A walk that gets to its end has reached every component. -/
theorem Fits.short (hfits : Fits d i cs) (hwalk : Walk.walk d.next i cs = some j) :
    ∀ c ∈ cs, c.length < 59 := by
  intro c hc
  obtain ⟨before, after, rfl⟩ := List.append_of_mem hc
  apply hfits before c after rfl
  intro hnone
  rw [Walk.walk_append, hnone] at hwalk
  contradiction

/-- The path is absolute, and its components lead somewhere. -/
def Leads (d : Disk) (path : CString) : Prop :=
  path.bytes.head? = some slash ∧ Walk.walk d.next 0 (components path.bytes) ≠ none

/-- Where the names fit, the lookup fails only on a path that leads nowhere. -/
theorem Navigable.lookup_none_iff (h : Navigable d S) (hfits : PathFits d path) (name : NameBuf) :
    pathLookup d path name = .ok none ↔ ¬ Leads d path := by
  by_cases habs : path.bytes.head? = some slash
  · cases hwalk : Walk.walk d.next 0 (components path.bytes) with
    | none =>
      have hno : ¬ Leads d path := fun hleads => hleads.2 hwalk
      refine iff_of_true ?_ hno
      obtain ⟨⟨r, name'⟩, hr⟩ := (h.resolve_returns_iff path false name).mpr hfits
      have hlookup : pathLookup d path name = .ok r := by
        rw [pathLookup, hr]
        rfl
      cases r with
      | none => exact hlookup
      | some x =>
        have := h.lookup_walk hlookup
        rw [hwalk] at this
        contradiction
    | some j =>
      have hleads : Leads d path := ⟨habs, by simp [hwalk]⟩
      refine iff_of_false ?_ (not_not.mpr hleads)
      obtain ⟨name', hrun⟩ := follow_walk d 0 name ((hfits habs).short hwalk)
      rw [pathLookup, h.resolve_eq, if_pos habs, hrun, hwalk]
      intro hnone
      cases hnone
  · have hno : ¬ Leads d path := fun hleads => habs hleads.1
    refine iff_of_true ?_ hno
    rw [pathLookup, h.resolve_eq, if_neg habs]
    rfl

/-- `fs_chdir` returns `0` and moves to the directory that the lookup yields, or there is none and
it returns `-1` and stays. -/
def ChdirByLookup (s : State) (path : CString) (name : NameBuf) (dest : Inode) : Prop :=
  ∃ code s', fsChdir s path name dest = .ok (code, s') ∧
    ((code = 0 ∧ ∃ x, pathLookup s.disk path name = .ok (some x) ∧ x.type = .directoryT ∧
        s' = { s with cwd := x }) ∨
      (code = -1 ∧ s' = s ∧
        ¬ ∃ x, pathLookup s.disk path name = .ok (some x) ∧ x.type = .directoryT))

/-- With the lookup's inode the outcome is as it should be, with the stale one only if that is no
directory. -/
theorem chdirByLookup_iff (s : State) (path : CString) (name : NameBuf) (dest : Inode) :
    ChdirByLookup s path name dest ↔ (∃ r, pathLookup s.disk path name = .ok r) ∧
      (pathLookup s.disk path name = .ok none → dest.type ≠ .directoryT) := by
  unfold ChdirByLookup fsChdir
  cases hlookup : pathLookup s.disk path name with
  | error e =>
    constructor
    · rintro ⟨code, s', hrun, -⟩
      contradiction
    · rintro ⟨⟨r, hr⟩, -⟩
      contradiction
  | ok r =>
    simp only [bind, Except.bind, pure, Except.pure]
    cases r with
    | none =>
      rw [Option.getD_none]
      split_ifs with hdir
      · exact iff_of_true ⟨-1, s, rfl, .inr ⟨rfl, rfl, by simp⟩⟩ ⟨⟨none, rfl⟩, fun _ => hdir⟩
      · refine iff_of_false ?_ fun h => hdir (h.2 rfl)
        rintro ⟨code, s', hrun, ⟨-, x, hx, -⟩ | ⟨hcode, -⟩⟩
        · cases hx
        · have := (Exec.ok_inj hrun).1
          omega
    | some x =>
      rw [Option.getD_some]
      split_ifs with hdir
      · refine iff_of_true ⟨-1, s, rfl, .inr ⟨rfl, rfl, ?_⟩⟩ ⟨⟨some x, rfl⟩, fun h => by cases h⟩
        rintro ⟨y, hy, hydir⟩
        obtain rfl := Option.some.inj (Except.ok.inj hy)
        exact hdir hydir
      · exact iff_of_true ⟨0, _, rfl, .inl ⟨rfl, x, rfl, not_not.mp hdir, rfl⟩⟩
          ⟨⟨some x, rfl⟩, fun h => by cases h⟩

/-- What decides is whether the lookup comes back, and what the uninitialised inode holds when it
fails: on a disk that can be walked, whether the names fit, and whether the path leads somewhere. -/
theorem chdir_by_lookup_iff (s : State) (path : CString) (name : NameBuf) (dest : Inode) :
    (ChdirByLookup s path name dest ↔ (∃ r, pathLookup s.disk path name = .ok r) ∧
      (pathLookup s.disk path name = .ok none → dest.type ≠ .directoryT)) ∧
    ∀ S, Navigable s.disk S → (ChdirByLookup s path name dest ↔
      PathFits s.disk path ∧ (¬ Leads s.disk path → dest.type ≠ .directoryT)) := by
  refine ⟨chdirByLookup_iff s path name dest, ?_⟩
  intro S h
  rw [chdirByLookup_iff]
  have hreturns : (∃ r, pathLookup s.disk path name = .ok r) ↔ PathFits s.disk path := by
    rw [← h.resolve_returns_iff path false name, pathLookup]
    constructor
    · rintro ⟨r, hr⟩
      obtain ⟨a, ha, -⟩ := Exec.bind_ok hr
      exact ⟨a, ha⟩
    · rintro ⟨r, hr⟩
      rw [hr]
      exact ⟨r.1, rfl⟩
  rw [hreturns]
  constructor
  · exact fun hok => ⟨hok.1, fun hno => hok.2 ((h.lookup_none_iff hok.1 name).mpr hno)⟩
  · exact fun hok => ⟨hok.1, fun hnone => hok.2 ((h.lookup_none_iff hok.1 name).mp hnone)⟩

theorem RootOnly.deepPath_nowhere (h : RootOnly d) : ¬ Leads d deepPath := by
  have hcs : components deepPath.bytes = [[98], List.replicate 59 97] := by decide
  rintro ⟨-, hwalk⟩
  rw [hcs, Walk.walk_cons, h.next, if_neg (by decide)] at hwalk
  exact hwalk rfl

/-- A change to a missing directory is refused if the stale inode is a file, and made if it is a
directory. -/
theorem chdir_by_lookup_missing : ∃ d, Booted d ∧
    ChdirByLookup ⟨d, d.inode 0⟩ deepPath (Bytes.zero 59) (freshInode .fileT 7) ∧
    ¬ ChdirByLookup ⟨d, d.inode 0⟩ deepPath (Bytes.zero 59) (freshInode .directoryT 7) := by
  obtain ⟨d, hboot⟩ := exists_booted
  have hfits := hboot.rootOnly.deepPath_fits
  have hnowhere := hboot.rootOnly.deepPath_nowhere
  refine ⟨d, hboot, ?_, ?_⟩
  · apply ((chdir_by_lookup_iff ⟨d, d.inode 0⟩ deepPath (Bytes.zero 59)
      (freshInode .fileT 7)).2 _ hboot.rootOnly.tree.nav).mpr
    exact ⟨hfits, fun _ => by decide⟩
  · intro hlookup
    have hstale := ((chdir_by_lookup_iff ⟨d, d.inode 0⟩ deepPath (Bytes.zero 59)
      (freshInode .directoryT 7)).2 _ hboot.rootOnly.tree.nav).mp hlookup
    exact hstale.2 hnowhere rfl

def pathRelative : CString := ⟨[97], by decide⟩

/-- With a stale directory in the local inode, the change to a relative path succeeds, and the
stale inode is the working directory. -/
theorem chdir_relative_succeeds : ∃ d, Booted d ∧
    fsChdir ⟨d, d.inode 0⟩ pathRelative (Bytes.zero 59) (freshInode .directoryT 7) =
      .ok (0, ⟨d, freshInode .directoryT 7⟩) ∧
    pathLookup d pathRelative (Bytes.zero 59) = .ok none ∧
    ¬ ChdirByLookup ⟨d, d.inode 0⟩ pathRelative (Bytes.zero 59) (freshInode .directoryT 7) := by
  obtain ⟨d, hboot⟩ := exists_booted
  have hlookup : pathLookup d pathRelative (Bytes.zero 59) = .ok none := rfl
  refine ⟨d, hboot, rfl, hlookup, ?_⟩
  rw [chdirByLookup_iff]
  exact fun h => h.2 hlookup rfl

end PicoShell.Fs
