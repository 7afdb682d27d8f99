import PicoShell.Fs.WellFormed

/-! `directory.c`.  A directory is a file of 64-byte entries; a removed entry stays
behind as an invalid slot. -/

namespace PicoShell.Fs

/-- How the loop over a directory's entries ends. -/
inductive Scan
  | failed
  | hit (offset : ℕ) (e : Dirent)
  | done

/-- The offsets of `for (offset = 0; offset < size; offset += sizeof(dirent))`. -/
def offsets (size : ℕ) : List ℕ :=
  (List.range ((size + (direntSize - 1)) / direntSize)).map (direntSize * ·)

/-- The loop that every operation runs over the entries: it stops at the first one
with `hit`, and fails where an entry cannot be read. -/
def scanDir (disk : Disk) (inode : Inode) (hit : Dirent → Bool) : List ℕ → Exec Scan
  | [] => .ok .done
  | offset :: rest => do
    let (read, bytes) ← fileRead disk inode offset direntSize
    if read ≠ direntSize then
      return .failed
    else
      let dirent := Dirent.decode (Bytes.ofList 64 bytes)
      if hit dirent then return .hit offset dirent else scanDir disk inode hit rest

/-- The inode of a directory, as the entry checks of all four operations fetch it. -/
def dirInode (disk : Disk) (inum : ℕ) : Option Inode :=
  if inum ≥ numInodes then none
  else
    match inodeRead disk inum with
    | none => none
    | some inode => if inode.type = .directoryT then some inode else none

def dirLookup (disk : Disk) (inum : ℕ) (name : List UInt8) : Exec ℤ :=
  match dirInode disk inum with
  | none => .ok (-1)
  | some inode => do
    match ← scanDir disk inode (fun e => e.valid && e.key == name) (offsets inode.len) with
    | .hit _ dirent => return dirent.inum.toInt
    | _ => return -1

def dirEmpty (disk : Disk) (inum : ℕ) : Exec ℤ :=
  match dirInode disk inum with
  | none => .ok (-1)
  | some inode => do
    match ← scanDir disk inode (fun e => e.valid && e.key != dotName && e.key != dotDotName)
        (offsets inode.len) with
    | .failed => return -1
    | .hit _ _ => return 0
    | .done => return 1

/-- `dir_add`.  The argument `stack` is the memory at `&new_dirent`: the eight bytes of the
pointer and what lies above it on the stack, which is what a reused slot receives. -/
def dirAdd (disk : Disk) (inum : ℕ) (newDirent : Dirent) (stack : Bytes 64) :
    Exec (ℤ × Disk) :=
  match dirInode disk inum with
  | none => .ok (-1, disk)
  | some inode => do
    if (← dirLookup disk inum newDirent.key) ≠ -1 then
      return (-1, disk)
    else
      let size := uintOf inode.size.toInt
      match ← scanDir disk inode (fun e => !e.valid) (offsets size) with
      | .failed => return (-1, disk)
      | .hit offset _ => do
        -- `file_write` gets the address of the pointer, not the entry
        let (written, disk, _) ← fileWrite disk inode stack offset
        return (if written = direntSize then 0 else -1, disk)
      | .done => do
        let (written, disk, _) ← fileWrite disk inode newDirent.encode
          (direntSize * (offsets size).length)
        return (if written = direntSize then 0 else -1, disk)

/-- `dir_remove`; its match looks at the name only. -/
def dirRemove (disk : Disk) (inum : ℕ) (name : List UInt8) : Exec (ℤ × Disk) :=
  if inum ≥ numInodes then .ok (-1, disk)
  else if name = dotName ∨ name = dotDotName then .ok (-1, disk)
  else
    match dirInode disk inum with
    | none => .ok (-1, disk)
    | some inode => do
      -- an invalidated slot matches like any other: its name is empty
      match ← scanDir disk inode (fun e => e.key == name) (offsets inode.len) with
      | .hit offset _ => do
        let (written, disk, _) ← fileWrite disk inode (Bytes.zero 64) offset
        return (if written = direntSize then 0 else -1, disk)
      | _ => return (-1, disk)

def Disk.entry (d : Disk) (x : Inode) (k : ℕ) : Dirent :=
  Dirent.decode fun i => d.byte x (64 * k + i.val)

def Disk.entries (d : Disk) (x : Inode) : List Dirent :=
  (List.range (x.len / 64)).map (d.entry x)

/-- The first valid entry under a name. -/
def findEntry (es : List Dirent) (name : List UInt8) : Option Dirent :=
  es.find? fun e => e.valid && e.key == name

/-- The directory as a finite map: the inode number under a name, or `-1`. -/
def lookupEntry (es : List Dirent) (name : List UInt8) : ℤ :=
  match findEntry es name with
  | some e => e.inum.toInt
  | none => -1

/-- The valid entries have terminated, pairwise distinct names and inode numbers in range. -/
structure EntriesOk (es : List Dirent) : Prop where
  terminated : ∀ e ∈ es, e.valid = true → e.key.length < 59
  inum : ∀ e ∈ es, e.valid = true → 0 ≤ e.inum.toInt ∧ e.inum.toInt < 80
  distinct : es.Pairwise fun e e' => e.valid = true → e'.valid = true → e.key ≠ e'.key

/-- Directories hold whole entries, and these are in order. -/
structure DirsOk (d : Disk) (S : ℕ → Prop) : Prop where
  whole : ∀ i, S i → (d.inode i).type = .directoryT → 64 ∣ (d.inode i).len
  entries : ∀ i, S i → (d.inode i).type = .directoryT → EntriesOk (d.entries (d.inode i))

variable {d d' : Disk} {x : Inode} {S : ℕ → Prop} {i k : ℕ}

@[simp] theorem Disk.length_entries (d : Disk) (x : Inode) :
    (d.entries x).length = x.len / 64 := by
  simp [Disk.entries]

theorem Disk.getElem?_entries (d : Disk) (x : Inode) {k : ℕ} (hk : k < x.len / 64) :
    (d.entries x)[k]? = some (d.entry x k) := by
  simp [Disk.entries, List.getElem?_map, List.getElem?_range hk]

theorem dirInode_of_lt (d : Disk) {i : ℕ} (hi : i < 80) :
    dirInode d i = if (d.inode i).type = .directoryT then some (d.inode i) else none := by
  rw [dirInode, if_neg (by simp; omega), inodeRead_of_lt d hi]

theorem fileRead_entry (d : Disk) (hx : x.Legible) (hk : 64 * k + 64 ≤ x.len) :
    fileRead d x (64 * k : ℕ) 64 =
      .ok (64, (List.range 64).map fun i => d.byte x (64 * k + i)) :=
  fileRead_inside d hx hk

theorem decode_entry (d : Disk) (x : Inode) (k : ℕ) :
    Dirent.decode (Bytes.ofList 64 ((List.range 64).map fun i => d.byte x (64 * k + i))) =
      d.entry x k := by
  unfold Disk.entry
  congr 1
  funext i
  simp [Bytes.ofList, List.getD_eq_getElem?_getD]

/-- The outcome of the scan in terms of the slots. -/
def Scan.ofIndex (d : Disk) (x : Inode) : Option ℕ → Scan
  | some k => .hit (64 * k) (d.entry x k)
  | none => .done

theorem scanDir_map (hx : x.Legible) (hit : Dirent → Bool) :
    ∀ ks : List ℕ, (∀ k ∈ ks, 64 * k + 64 ≤ x.len) →
      scanDir d x hit (ks.map (64 * ·)) =
        .ok (Scan.ofIndex d x (ks.find? fun k => hit (d.entry x k))) := by
  intro ks
  induction ks with
  | nil => exact fun _ => rfl
  | cons k ks ih =>
    intro hks
    have hread := fileRead_entry d hx (hks k (by simp))
    simp only [List.map_cons, scanDir, direntSize, Nat.cast_ofNat, hread, bind, Except.bind,
      decode_entry]
    cases hhit : hit (d.entry x k) with
    | true => simp [hhit, Scan.ofIndex, pure, Except.pure]
    | false => simpa [hhit] using ih fun l hl => hks l (by simp [hl])

theorem scanDir_entries (hx : x.Legible) (hwhole : 64 ∣ x.len) (hit : Dirent → Bool) :
    scanDir d x hit (offsets x.len) =
      .ok (Scan.ofIndex d x ((List.range (x.len / 64)).find? fun k => hit (d.entry x k))) := by
  have hceil : (x.len + 63) / 64 = x.len / 64 := by omega
  have hoff : offsets x.len = (List.range (x.len / 64)).map (64 * ·) := by
    simp only [offsets, direntSize, Nat.add_one_sub_one, hceil]
  rw [hoff]
  apply scanDir_map hx
  intro k hk
  have := List.mem_range.mp hk
  omega

theorem dirLookup_eq (hx : (d.inode i).Legible) (hi : i < 80)
    (hdir : (d.inode i).type = .directoryT) (hwhole : 64 ∣ (d.inode i).len) (name : List UInt8) :
    dirLookup d i name = .ok (lookupEntry (d.entries (d.inode i)) name) := by
  rw [dirLookup, dirInode_of_lt d hi, if_pos hdir]
  simp only [scanDir_entries hx hwhole, bind, Except.bind, lookupEntry, findEntry, Disk.entries,
    List.find?_map, Function.comp_def]
  cases (List.range ((d.inode i).len / 64)).find? _ <;> rfl

theorem dirEmpty_eq (hx : (d.inode i).Legible) (hi : i < 80)
    (hdir : (d.inode i).type = .directoryT) (hwhole : 64 ∣ (d.inode i).len) :
    dirEmpty d i = .ok (if (d.entries (d.inode i)).any
      (fun e => e.valid && e.key != dotName && e.key != dotDotName) then 0 else 1) := by
  rw [dirEmpty, dirInode_of_lt d hi, if_pos hdir]
  simp only [scanDir_entries hx hwhole, bind, Except.bind]
  cases hf : (List.range ((d.inode i).len / 64)).find? _ with
  | none =>
    rw [if_neg]
    · rfl
    · rw [Disk.entries, List.any_map, List.any_eq_true]
      rintro ⟨k, hk, hhit⟩
      exact List.find?_eq_none.mp hf k hk hhit
  | some k =>
    rw [if_pos]
    · rfl
    · rw [Disk.entries, List.any_map, List.any_eq_true]
      exact ⟨k, List.mem_of_find?_eq_some hf, List.find?_some hf⟩

section Written

variable {src : Bytes 64}

theorem entry_written (h : Written d d' S i (64 * k) 64 src.get)
    (hl : 64 * k + 64 ≤ max (d.inode i).len (64 * k + 64)) {l : ℕ}
    (hlen : 64 * l + 64 ≤ max (d.inode i).len (64 * k + 64)) :
    d'.entry (d'.inode i) l = if l = k then Dirent.decode src else d.entry (d.inode i) l := by
  have hbyte : ∀ t : Fin 64, d'.byte (d'.inode i) (64 * l + t.val) =
      if l = k then src t else d.byte (d.inode i) (64 * l + t.val) := by
    intro t
    rw [h.byte _ (by omega)]
    by_cases hlk : l = k
    · subst hlk
      rw [if_pos (by omega), if_pos rfl, Nat.add_sub_cancel_left, Bytes.get_val]
    · rw [if_neg (by omega), if_neg hlk]
  unfold Disk.entry
  rw [funext hbyte]
  split_ifs with hlk
  · rfl
  · rfl

theorem entries_written_set (h : Written d d' S i (64 * k) 64 src.get)
    (hk : 64 * k + 64 ≤ (d.inode i).len) :
    d'.entries (d'.inode i) = (d.entries (d.inode i)).set k (Dirent.decode src) := by
  have hmax : max (d.inode i).len (64 * k + 64) = (d.inode i).len := by omega
  have hlen : (d'.inode i).len = (d.inode i).len := by rw [h.len, hmax]
  apply List.ext_getElem?
  intro l
  by_cases hl : l < (d.inode i).len / 64
  · rw [Disk.getElem?_entries _ _ (by omega), List.getElem?_set, Disk.length_entries,
      entry_written h (by omega) (by omega)]
    by_cases hlk : k = l
    · rw [if_pos hlk.symm, if_pos hlk, if_pos (by omega)]
    · rw [if_neg (Ne.symm hlk), if_neg hlk, Disk.getElem?_entries _ _ hl]
  · rw [List.getElem?_eq_none (by simp [hlen]; omega), List.getElem?_eq_none (by simp; omega)]

theorem entries_written_append (h : Written d d' S i (64 * k) 64 src.get)
    (hk : (d.inode i).len = 64 * k) :
    d'.entries (d'.inode i) = d.entries (d.inode i) ++ [Dirent.decode src] := by
  have hlen : (d'.inode i).len = 64 * k + 64 := by rw [h.len]; omega
  have hlen0 : (d.entries (d.inode i)).length = k := by rw [Disk.length_entries]; omega
  apply List.ext_getElem?
  intro l
  by_cases hl : l < k + 1
  · rw [Disk.getElem?_entries _ _ (by omega), entry_written h (by omega) (by omega)]
    by_cases hlk : l = k
    · rw [if_pos hlk, List.getElem?_append_right (by omega), hlen0, hlk, Nat.sub_self]
      rfl
    · rw [if_neg hlk, List.getElem?_append_left (by omega), Disk.getElem?_entries _ _ (by omega)]
  · rw [List.getElem?_eq_none (by simp [hlen]; omega), List.getElem?_eq_none (by simp; omega)]

theorem entries_other {p n j : ℕ} {s : ℕ → UInt8} (h : Written d d' S i p n s)
    (hd : WellFormedOn d S) (hj : S j) (hji : j ≠ i) :
    d'.entries (d'.inode j) = d.entries (d.inode j) := by
  have hin := h.inode j (hd.lt j hj) hji
  unfold Disk.entries
  rw [hin]
  apply List.map_congr_left
  intro l hl
  have hl : l < (d.inode j).len / 64 := List.mem_range.mp hl
  unfold Disk.entry
  congr 1
  funext t
  have := h.byte_other hd hj hji (q := 64 * l + t.val) (by omega)
  rwa [hin] at this

end Written

end PicoShell.Fs
