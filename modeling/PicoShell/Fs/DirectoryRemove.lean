import PicoShell.Fs.DirectoryMap

namespace PicoShell.Fs

variable {d d' : Disk} {S : ℕ → Prop} {i k : ℕ} {es : List Dirent} {e : Dirent} {name : List UInt8}

/-- Result `r` and disk `d'` of removing a name from directory `i` as from a finite map. -/
structure RemovesEntry (d : Disk) (i : ℕ) (name : List UInt8) (r : ℤ) (d' : Disk) : Prop where
  returns : r = 0 ∨ r = -1
  zero_iff : r = 0 ↔ ¬ (name = dotName ∨ name = dotDotName) ∧ dirLookup d i name ≠ .ok (-1)
  lookup : r = 0 → dirLookup d' i name = .ok (-1)
  other : r = 0 → ∀ name', name' ≠ name → dirLookup d' i name' = dirLookup d i name'
  size : r = 0 → (d'.inode i).size = (d.inode i).size
  failed : r = -1 → d' = d

/-- If a slot carries the name, the first one that does is valid. -/
def ValidFirst (es : List Dirent) (name : List UInt8) : Prop :=
  ∀ k e, FirstSlot es (fun e => e.key == name) k → es[k]? = some e → e.valid = true

/-- Cleared slots stand in the way of the empty name only. -/
theorem validFirst_of_cleared (hcleared : ∀ e ∈ es, e.valid = false → e.key = [])
    (hname : name ≠ []) : ValidFirst es name := by
  intro k e hfirst he
  obtain ⟨⟨x, hx, hkey⟩, -⟩ := hfirst
  obtain rfl := Option.some.inj (he.symm.trans hx)
  by_contra hinvalid
  have hnil := hcleared e (List.mem_of_getElem? he) (Bool.eq_false_iff.mpr hinvalid)
  exact hname ((beq_iff_eq.mp hkey).symm.trans hnil)

theorem findEntry_set_self (hnames : NamesDistinct es) (he : es[k]? = some e)
    (hv : e.valid = true) : findEntry (es.set k Dirent.hole) e.key = none := by
  apply findEntry_eq_none.mpr
  intro x hx hxv hkey
  rcases mem_set_hole hx with rfl | ⟨l, hl, hxl⟩
  · contradiction
  · exact hl (slot_unique hnames hxl he hxv hv hkey)

theorem findEntry_set_hole (he : es[k]? = some e) (hold : e.valid = true → e.key ≠ name) :
    findEntry (es.set k Dirent.hole) name = findEntry es name :=
  findEntry_set_ne he hold fun hv => absurd hv Bool.false_ne_true

section Removes

variable (hd : WellFormedOn d S) (hi : S i) (hdir : (d.inode i).type = .directoryT)
  (hwhole : 64 ∣ (d.inode i).len)

include hd hi hdir hwhole in
/-- A refusal is right if the name is protected or not found. -/
theorem RemovesEntry.refused (h : (name = dotName ∨ name = dotDotName) ∨
    findEntry (d.entries (d.inode i)) name = none) : RemovesEntry d i name (-1) d where
  returns := .inr rfl
  zero_iff := by
    rw [dirLookup_eq (hd.ok hi).legible (hd.lt i hi) hdir hwhole, lookupEntry]
    rcases h with h | h
    · simp [h]
    · simp [h]
  lookup h0 := absurd h0 (by decide)
  other h0 := absurd h0 (by decide)
  size h0 := absurd h0 (by decide)
  failed _ := rfl

include hd hi hdir hwhole in
/-- The first slot with the name was cleared: that removes the name if the slot was valid. -/
theorem removesEntry_cleared_iff (hentries : EntriesOk (d.entries (d.inode i)))
    (hname : ¬ (name = dotName ∨ name = dotDotName)) (he : (d.entries (d.inode i))[k]? = some e)
    (hkey : e.key = name) (hin : 64 * k + 64 ≤ (d.inode i).len)
    (h : Written d d' S i (64 * k) 64 (Bytes.zero 64).get) :
    RemovesEntry d i name 0 d' ↔ e.valid = true := by
  have hset : d'.entries (d'.inode i) = (d.entries (d.inode i)).set k Dirent.hole :=
    entries_written_set h hin
  have hlook := dirLookup_eq (hd.ok hi).legible (hd.lt i hi) hdir hwhole
  have hlook' := dirLookup_written h hi hdir (by omega)
  constructor
  · intro hremoves
    by_contra hinvalid
    -- the lookup of the name does not change
    have hsame : dirLookup d' i name = dirLookup d i name := by
      rw [hlook', hlook, hset, lookupEntry, lookupEntry,
        findEntry_set_hole he fun hv => absurd hv hinvalid]
    exact (hremoves.zero_iff.mp rfl).2 (hsame.symm.trans (hremoves.lookup rfl))
  · intro hv
    have hmem := List.mem_of_getElem? he
    have hfound : lookupEntry (d.entries (d.inode i)) name = e.inum.toInt := by
      rw [← hkey]
      exact lookupEntry_of_mem hentries.distinct hmem hv
    refine ⟨.inl rfl, iff_of_true rfl ⟨hname, ?_⟩, fun _ => ?_, fun _ name' hne => ?_, fun _ => ?_,
      fun h0 => absurd h0 (by decide)⟩
    · rw [hlook, hfound]
      intro heq
      have := (hentries.inum e hmem hv).1
      rw [Except.ok.inj heq] at this
      omega
    · rw [hlook', hset, lookupEntry, ← hkey, findEntry_set_self hentries.distinct he hv]
    · rw [hlook', hlook, hset, lookupEntry, lookupEntry, findEntry_set_hole he]
      exact fun _ => hkey.trans_ne hne.symm
    · apply Int32.toInt_inj.mp
      rw [h.size, (hd.ok hi).size_eq]
      omega

end Removes

/-- `dir_remove` removes a name from the finite map exactly when the name is protected, or the
first slot that carries it, if there is one, is valid. -/
theorem dirRemove_removes_iff (d : Disk) (hd : WellFormed d) (hdirs : DirsOk d (Allocated d))
    (i : ℕ) (hi : Allocated d i) (hdir : (d.inode i).type = .directoryT) (name : List UInt8) :
    ∃ r d', dirRemove d i name = .ok (r, d') ∧
      (RemovesEntry d i name r d' ↔
        (name = dotName ∨ name = dotDotName) ∨ ValidFirst (d.entries (d.inode i)) name) := by
  have hwhole := hdirs.whole i hi hdir
  have hentries := hdirs.entries i hi hdir
  rcases dirRemove_cases hd hi hdir hwhole name with ⟨hdot, hrun⟩ | ⟨hdot, hnone, hrun⟩ |
    ⟨hdot, k, d', hfirst, hin, hw, hrun⟩
  · exact ⟨-1, d, hrun, iff_of_true (.refused hd hi hdir hwhole (.inl hdot)) (.inl hdot)⟩
  · have hnot : findEntry (d.entries (d.inode i)) name = none :=
      findEntry_eq_none.mpr fun e he _ => hnone e he
    refine ⟨-1, d, hrun, iff_of_true (.refused hd hi hdir hwhole (.inr hnot)) (.inr ?_)⟩
    rintro k e ⟨⟨x, hx, hkey⟩, -⟩ -
    exact absurd (beq_iff_eq.mp hkey) (hnone x (List.mem_of_getElem? hx))
  · obtain ⟨e, he, hkey⟩ := hfirst.1
    refine ⟨0, d', hrun, ?_⟩
    rw [removesEntry_cleared_iff hd hi hdir hwhole hentries hdot he (beq_iff_eq.mp hkey) hin hw,
      or_iff_right hdot]
    constructor
    · intro hv l x hl hx
      rw [hl.unique hfirst, he, Option.some.injEq] at hx
      exact hx ▸ hv
    · exact fun hvalid => hvalid k e hfirst he

/-- The name `c` in a directory that holds a cleared slot. -/
theorem dirRemove_removes_holeDisk : ∃ r d', dirRemove holeDisk 0 [99] = .ok (r, d') ∧
    RemovesEntry holeDisk 0 [99] r d' := by
  have hi : Allocated holeDisk 0 := (allocated_holeDisk 0).mpr rfl
  obtain ⟨r, d', hrun, hiff⟩ := dirRemove_removes_iff holeDisk wellFormed_holeDisk dirsOk_holeDisk 0
    hi (by rw [inode_holeDisk]; rfl) [99]
  refine ⟨r, d', hrun, hiff.mpr (.inr (validFirst_of_cleared ?_ (by decide)))⟩
  intro e he _
  rw [entries_holeDisk, List.mem_singleton] at he
  rw [he]
  rfl

/-- The empty name is removed from the directory with a cleared slot, where it is not found. -/
theorem dirRemove_cleared : WellFormed holeDisk ∧ DirsOk holeDisk (Allocated holeDisk) ∧
    Allocated holeDisk 0 ∧ (holeDisk.inode 0).type = .directoryT ∧
    holeDisk.entries (holeDisk.inode 0) = [Dirent.hole] ∧
    dirLookup holeDisk 0 [] = .ok (-1) ∧ ∃ d', dirRemove holeDisk 0 [] = .ok (0, d') := by
  have hi : Allocated holeDisk 0 := (allocated_holeDisk 0).mpr rfl
  have hdir : (holeDisk.inode 0).type = .directoryT := by
    rw [inode_holeDisk]
    rfl
  have hwhole := dirsOk_holeDisk.whole 0 hi hdir
  refine ⟨wellFormed_holeDisk, dirsOk_holeDisk, hi, hdir, entries_holeDisk, ?_, ?_⟩
  · rw [dirLookup_eq (wellFormed_holeDisk.ok hi).legible hi.1 hdir hwhole, entries_holeDisk]
    rfl
  · rcases dirRemove_cases wellFormed_holeDisk hi hdir hwhole [] with ⟨hdot, -⟩ | ⟨-, hnone, -⟩ |
      ⟨-, k, d', -, -, -, hrun⟩
    · exact absurd hdot (by decide)
    · exact absurd rfl (hnone Dirent.hole (by rw [entries_holeDisk]; exact List.mem_singleton_self _))
    · exact ⟨d', hrun⟩

end PicoShell.Fs
