import PicoShell.Fs.FailedWrites
import PicoShell.Fs.Fs

/-! What `inode_alloc`, `file_write` and `file_read` do to the files, told without blocks and
pointers: a byte string for every inode, and the number of free blocks. -/

namespace PicoShell.Fs

structure FileStore where
  files : ℕ → Option (List UInt8)
  /-- The number of blocks that belong to no file. -/
  free : ℕ

namespace FileStore

/-- `inode_alloc`: an empty file under the least number that is free. -/
def alloc (s : FileStore) : ℤ × FileStore :=
  match (List.range 80).find? fun i => s.files i = none with
  | none => (-1, s)
  | some i => (i, { s with files := Function.update s.files i (some []) })

/-- The blocks that a file of this length needs in addition. -/
def needs (length finish : ℕ) : ℕ := blockCount finish - blockCount length

/-- `file_write`: where the blocks run out, what lies inside the old file is written nevertheless,
and all blocks are lost. -/
def write (s : FileStore) (i offset : ℕ) (data : List UInt8) : ℤ × FileStore :=
  match s.files i with
  | none => (-1, s)
  | some old =>
    if old.length < offset ∨ maxFileSize < offset + data.length then (-1, s)
    else if needs old.length (offset + data.length) ≤ s.free then
      (data.length,
        { files := Function.update s.files i (some (overwrite old offset data))
          free := s.free - needs old.length (offset + data.length) })
    else
      (-1,
        { files := Function.update s.files i (some ((overwrite old offset data).take old.length))
          free := 0 })

def read (s : FileStore) (i offset count : ℕ) : ℤ × List UInt8 :=
  match s.files i with
  | none => (-1, [])
  | some old => if old.length < offset then (-1, []) else (count, (old.drop offset).take count)

end FileStore

/-- The calls of the file layer, each on the inode as it stands in the table. -/
inductive StoreCall
  | alloc (type : FileType) (numLinks : Int32)
  | write (i offset : ℕ) (data : List UInt8)
  | read (i offset count : ℕ)

namespace StoreCall

/-- The result, the bytes read, and the disk. -/
def exec (d : Disk) : StoreCall → Exec ((ℤ × List UInt8) × Disk)
  | alloc type numLinks => do
    let (r, d, x) ← inodeAlloc d (freshInode type numLinks)
    return ((if r = 0 then x.inum.toInt else -1, []), d)
  | write i offset data =>
    match inodeRead d i with
    | none => .ok ((-1, []), d)
    | some x => do
      let (r, d, _) ← fileWrite (n := data.length) d x data.get offset
      return ((r, []), d)
  | read i offset count =>
    match inodeRead d i with
    | none => .ok ((-1, []), d)
    | some x => do
      let r ← fileRead d x offset count
      return (r, d)

def execs (d : Disk) : List StoreCall → Exec (List (ℤ × List UInt8) × Disk)
  | [] => .ok ([], d)
  | call :: calls => do
    let (r, d) ← call.exec d
    let (rs, d) ← execs d calls
    return (r :: rs, d)

end StoreCall

namespace FileStore

def exec (s : FileStore) : StoreCall → (ℤ × List UInt8) × FileStore
  | .alloc _ _ => ((s.alloc.1, []), s.alloc.2)
  | .write i offset data => (((s.write i offset data).1, []), (s.write i offset data).2)
  | .read i offset count => (s.read i offset count, s)

def execs (s : FileStore) : List StoreCall → List (ℤ × List UInt8) × FileStore
  | [] => ([], s)
  | call :: calls => ((s.exec call).1 :: ((s.exec call).2.execs calls).1, ((s.exec call).2.execs calls).2)

/-- The call is for a file, and does not read past its end. -/
def Allows (s : FileStore) : StoreCall → Prop
  | .alloc _ _ => True
  | .write i _ data => s.files i ≠ none ∧ data.length < 2 ^ 32
  | .read i offset count => ∃ old ∈ s.files i, old.length < offset ∨ offset + count ≤ old.length

def AllowsAll (s : FileStore) : List StoreCall → Prop
  | [] => True
  | call :: calls => s.Allows call ∧ (s.exec call).2.AllowsAll calls

structure Holds (s : FileStore) (d : Disk) : Prop where
  wf : WellFormed d
  files : ∀ i, s.files i = if i < 80 ∧ d.inodeBit i = true then some (d.contents (d.inode i)) else none
  free : s.free = d.free.card

end FileStore

variable {d d' : Disk} {s : FileStore} {i n p : ℕ}

/-- A write inside the limits either has its blocks and does everything, or runs out of them behind
the end of the file. -/
theorem fileWrite_outcome (hd : WellFormed d) (hi : Allocated d i) (buf : Bytes n)
    (hp : p ≤ (d.inode i).len) (hmax : p + n ≤ 12288) :
    (FileStore.needs (d.inode i).len (p + n) ≤ d.free.card ∧
      ∃ d' x', fileWrite d (d.inode i) buf p = .ok ((n : ℤ), d', x') ∧
        Written d d' (Allocated d) i p n buf.get ∧
        d'.free.card = d.free.card - FileStore.needs (d.inode i).len (p + n)) ∨
    (d.free.card < FileStore.needs (d.inode i).len (p + n) ∧
      ∃ c d' x', fileWrite d (d.inode i) buf p = .ok (-1, d', x') ∧
        Wrote d (d.inode i) d' x' (d.inode i).len p c buf.get (Foreign d (Allocated d) i) ∧
        (d.inode i).len ≤ p + c ∧ c < n ∧ d'.free.card = 0) := by
  obtain ⟨c, d', x', hwrote, hcount, ⟨hlt, hunset, hfull, hfail⟩ | ⟨rfl, hdone⟩⟩ :=
    fileWrite_cases buf (hd.ok hi) hd.foreign_marked (hd.lt i hi) (hd.inum i hi) hp hmax
  · have hout := (hwrote.mapped.present ((p + c) / 1024) (by omega)).not.mp (not_not.mpr hunset)
    refine .inr ⟨?_, c, d', x', hfail, hwrote, by omega, hlt, hfull⟩
    rw [max_eq_right (by omega)] at hcount
    unfold FileStore.needs
    unfold blockCount at hcount ⊢
    omega
  · have hfree : (d'.commit i x' (p + c)).free = d'.free := by
      ext b
      rw [Disk.mem_free, Disk.mem_free, d'.dataBit_commit hi.1]
    refine .inl ⟨?_, _, _, hdone, (written_of_wrote hd hi hwrote hmax).1, ?_⟩
    · unfold FileStore.needs
      unfold blockCount at hcount ⊢
      omega
    · rw [hfree]
      unfold FileStore.needs
      unfold blockCount at hcount ⊢
      omega

/-- Inside the old file a write that got stuck behind it is done. -/
theorem Wrote.contents {buf : Bytes n} {x' : Inode} {c : ℕ} (hd : WellFormed d) (hi : Allocated d i)
    (h : Wrote d (d.inode i) d' x' (d.inode i).len p c buf.get (Foreign d (Allocated d) i))
    (hp : p ≤ (d.inode i).len) (hend : (d.inode i).len ≤ p + c) (hc : c < n) :
    d'.contents (d'.inode i) =
      (overwrite (d.contents (d.inode i)) p (List.ofFn buf)).take (d.inode i).len := by
  have hlen := (hd.ok hi).len_le
  rw [h.frame.inode i hi.1]
  apply List.ext_getElem?
  intro q
  by_cases hq : q < (d.inode i).len
  · have hset := (hd.addrs i hi (q / 1024) (by omega)).mpr (by omega)
    have hbyte := h.byte q (by omega) (by omega)
    rw [Disk.byte, h.addr _ (by omega) hset, ← Disk.byte] at hbyte
    rw [Disk.getElem?_contents _ _ hq, hbyte, List.getElem?_take_of_lt hq,
      getElem?_overwrite _ _ _ (by simpa using hp), List.length_ofFn]
    by_cases hpq : p ≤ q
    · rw [if_pos ⟨hpq, by omega⟩, if_pos ⟨hpq, by omega⟩, List.getElem?_ofFn, dif_pos (by omega),
        Bytes.get_of_lt _ (by omega)]
    · rw [if_neg fun hin => hpq hin.1, if_neg fun hin => hpq hin.1, Disk.getElem?_contents _ _ hq]
  · rw [List.getElem?_eq_none (by simp; omega), List.getElem?_eq_none (by simp; omega)]

namespace FileStore.Holds

theorem of_some (h : s.Holds d) {old : List UInt8} (hold : s.files i = some old) :
    Allocated d i ∧ old = d.contents (d.inode i) ∧ old.length = (d.inode i).len := by
  rw [h.files] at hold
  split_ifs at hold with hi
  obtain rfl := Option.some.inj hold
  exact ⟨hi, rfl, d.length_contents _⟩

theorem update {text : List UInt8} {free : ℕ} (h : s.Holds d) (hi : i < 80) (hwf : WellFormed d')
    (hbits : ∀ j, d'.inodeBit j = (decide (j = i) || d.inodeBit j))
    (hself : d'.contents (d'.inode i) = text)
    (hother : ∀ j, Allocated d j → j ≠ i → d'.contents (d'.inode j) = d.contents (d.inode j))
    (hfree : free = d'.free.card) : Holds ⟨Function.update s.files i (some text), free⟩ d' where
  wf := hwf
  free := hfree
  files j := by
    dsimp only
    by_cases hji : j = i
    · subst hji
      rw [Function.update_self, hbits, if_pos ⟨hi, by simp⟩, hself]
    · rw [Function.update_of_ne hji, h.files, hbits, decide_eq_false hji, Bool.false_or]
      by_cases hj : j < 80 ∧ d.inodeBit j = true
      · rw [if_pos hj, if_pos hj, hother j hj hji]
      · rw [if_neg hj, if_neg hj]

theorem files_eq_none (h : s.Holds d) (hi : i < 80) : s.files i = none ↔ d.inodeBit i = false := by
  rw [h.files]
  by_cases hbit : d.inodeBit i = true
  · simp [hi, hbit]
  · simp [hbit]

theorem alloc (h : s.Holds d) (type : FileType) (numLinks : Int32) :
    ∃ d', StoreCall.exec d (.alloc type numLinks) = .ok ((s.exec (.alloc type numLinks)).1, d') ∧
      (s.exec (.alloc type numLinks)).2.Holds d' := by
  unfold StoreCall.exec FileStore.exec FileStore.alloc
  rcases inodeAlloc_cases d (freshInode type numLinks) with ⟨hfull, hrun⟩ | ⟨i, hi, hfree, hleast, hrun⟩
  · have hnone : (List.range 80).find? (fun i => s.files i = none) = none := by
      rw [List.find?_range_eq_none]
      intro i hi
      simp [h.files_eq_none hi, hfull i hi]
    simp only [hrun, hnone, bind, Except.bind]
    exact ⟨d, rfl, h⟩
  · have hsome : (List.range 80).find? (fun i => s.files i = none) = some i := by
      rw [List.find?_range_eq_some]
      refine ⟨by simp [h.files_eq_none hi, hfree], List.mem_range.mpr hi, ?_⟩
      intro j hj
      simp [h.files_eq_none (hj.trans hi), hleast j hj]
    have hblank : (freshInode type numLinks).Blank := ⟨rfl, fun _ => rfl⟩
    have hinum : (Int32.ofNat i).toInt = i := Int32.toInt_ofNat_of_lt (by omega)
    have hbits := fun j => d.inodeBit_takeInode (freshInode type numLinks) j hi
    simp only [hrun, hsome, bind, Except.bind, ↓reduceIte, hinum]
    refine ⟨_, rfl, h.update hi ?_ hbits ?_ ?_ ?_⟩
    · apply (h.wf.takeInode hblank hi).mono
      rintro j ⟨hj, hbit⟩
      rw [hbits, Bool.or_eq_true, decide_eq_true_iff] at hbit
      exact hbit.symm.imp_left fun hbit => ⟨hj, hbit⟩
    · rw [Disk.inode_takeInode _ _ hi hi, if_pos rfl]
      rfl
    · intro j hj hji
      rw [Disk.inode_takeInode _ _ hi hj.1, if_neg hji]
      apply Disk.contents_congr
      intro q _
      rw [Disk.byte, Disk.byte, Disk.data_takeInode _ _ _ hi]
    · rw [h.free]
      congr 1
      ext b
      rw [Disk.mem_free, Disk.mem_free, Disk.dataBit_takeInode _ _ _ hi]

theorem write (h : s.Holds d) {offset : ℕ} {data : List UInt8}
    (hallows : s.Allows (.write i offset data)) :
    ∃ d', StoreCall.exec d (.write i offset data) = .ok ((s.exec (.write i offset data)).1, d') ∧
      (s.exec (.write i offset data)).2.Holds d' := by
  obtain ⟨hfile, hlength⟩ := hallows
  obtain ⟨old, hold⟩ := Option.ne_none_iff_exists'.mp hfile
  obtain ⟨hi, hcontents, hlen⟩ := h.of_some hold
  have hok := h.wf.ok hi
  have hdata : List.ofFn data.get = data := List.ofFn_get data
  have hbit : ∀ j, d.inodeBit j = (decide (j = i) || d.inodeBit j) := by
    intro j
    by_cases hji : j = i
    · simp [hji, hi.2]
    · simp [hji]
  have hsame : ∀ {d' : Disk}, WellFormedOn d' (Allocated d) → (∀ j, d'.inodeBit j = d.inodeBit j) →
      WellFormed d' := by
    intro d' hwf hbits
    apply hwf.mono
    rintro j ⟨hj, hjbit⟩
    exact ⟨hj, by rw [← hbits, hjbit]⟩
  simp only [StoreCall.exec, FileStore.exec, FileStore.write, hold, inodeRead_of_lt d hi.1, hlen]
  by_cases hout : (d.inode i).len < offset ∨ maxFileSize < offset + data.length
  · -- the call is rejected at once
    have hrun : fileWrite (n := data.length) d (d.inode i) data.get offset = .ok (-1, d, d.inode i) := by
      by_cases hoff : (d.inode i).len < offset
      · rw [fileWrite, hok.uintOf_size, if_pos hoff]
      · exact fileWrite_too_long _ hlength hok (by omega) (hout.resolve_left hoff)
    simp only [if_pos hout, hrun, bind, Except.bind]
    exact ⟨d, rfl, h⟩
  · obtain ⟨hoff, hmax⟩ := not_or.mp hout
    simp only [if_neg hout, h.free]
    rcases fileWrite_outcome h.wf hi data.get (Nat.le_of_not_lt hoff) (Nat.le_of_not_lt hmax) with
      ⟨hneeds, d', x', hrun, hw, hfree⟩ | ⟨hneeds, c, d', x', hrun, hw, hend, hc, hfree⟩
    · simp only [if_pos hneeds, hrun, bind, Except.bind]
      refine ⟨d', rfl, h.update hi.1 (hsame hw.wellFormed hw.inodeBit) ?_ ?_ ?_ hfree.symm⟩
      · exact fun j => (hw.inodeBit j).trans (hbit j)
      · rw [hw.contents (Nat.le_of_not_lt hoff), ← hcontents, hdata]
      · exact fun j hj hji => hw.contents_other h.wf hj hji
    · simp only [if_neg (Nat.not_le_of_lt hneeds), hrun, bind, Except.bind]
      have hwf : WellFormedOn d' (Allocated d) := by
        apply h.wf.of_same
        · intro j hj
          rw [hw.frame.inode j hj.1]
          exact ⟨rfl, rfl, rfl⟩
        · exact fun j hj k hk hset => hw.frame.keep _ (h.wf.marked j hj k hk hset)
      refine ⟨d', rfl, h.update hi.1 (hsame hwf hw.frame.inodeBit) ?_ ?_ ?_ hfree.symm⟩
      · exact fun j => (hw.frame.inodeBit j).trans (hbit j)
      · rw [hw.contents h.wf hi (Nat.le_of_not_lt hoff) hend hc, ← hcontents, hdata]
      · intro j hj hji
        rw [hw.frame.inode j hj.1]
        exact Disk.contents_congr fun q hq => h.wf.byte_foreign hw.frame.data hj hji hq

theorem read (h : s.Holds d) {offset count : ℕ} (hallows : s.Allows (.read i offset count)) :
    StoreCall.exec d (.read i offset count) = .ok ((s.exec (.read i offset count)).1, d) := by
  obtain ⟨old, hmem, hrange⟩ := hallows
  have hold : s.files i = some old := hmem
  obtain ⟨hi, hcontents, hlen⟩ := h.of_some hold
  simp only [StoreCall.exec, FileStore.exec, FileStore.read, hold, inodeRead_of_lt d hi.1]
  by_cases hoff : old.length < offset
  · have hsize := (h.wf.ok hi).size_eq
    rw [if_pos hoff, fileRead, if_pos (by omega)]
    rfl
  · rw [if_neg hoff, h.wf.fileRead hi (by omega), hcontents]
    rfl

theorem step (h : s.Holds d) {call : StoreCall} (hallows : s.Allows call) :
    ∃ d', call.exec d = .ok ((s.exec call).1, d') ∧ (s.exec call).2.Holds d' := by
  cases call with
  | alloc type numLinks => exact h.alloc type numLinks
  | write i offset data => exact h.write hallows
  | read i offset count => exact ⟨d, h.read hallows, h⟩

end FileStore.Holds

/-- Every sequence of calls on a well-formed disk returns what it returns on the byte strings, and
leaves a well-formed disk that holds them. -/
theorem fileStore_refines {calls : List StoreCall} (h : s.Holds d) (hallows : s.AllowsAll calls) :
    ∃ d', StoreCall.execs d calls = .ok ((s.execs calls).1, d') ∧ (s.execs calls).2.Holds d' := by
  induction calls generalizing s d with
  | nil => exact ⟨d, rfl, h⟩
  | cons call calls ih =>
    obtain ⟨d₁, hstep, h₁⟩ := h.step hallows.1
    obtain ⟨d', hrest, h'⟩ := ih h₁ hallows.2
    refine ⟨d', ?_, h'⟩
    simp only [StoreCall.execs, hstep, hrest, bind, Except.bind]
    rfl

def FileStore.empty : FileStore := ⟨fun _ => none, 120⟩

theorem FileStore.holds_empty : empty.Holds .zeroed where
  wf := by
    apply (wellFormedOn_empty Disk.zeroed).mono
    rintro i ⟨-, hbit⟩
    rw [Disk.inodeBit_zeroed] at hbit
    contradiction
  files i := by rw [Disk.inodeBit_zeroed, if_neg (by simp), empty]
  free := by
    have hall : Disk.zeroed.free = Finset.range 120 := by
      ext b
      simp [Disk.mem_free]
    rw [hall, Finset.card_range, empty]

/-- Two bytes of a new file, one of them written again, and read. -/
def callsTwo : List StoreCall :=
  [.alloc .fileT 1, .write 0 0 [104, 105], .write 0 1 [111], .read 0 0 2]

theorem fileStore_refines_two : ∃ d,
    StoreCall.execs .zeroed callsTwo = .ok ([(0, []), (2, []), (1, []), (2, [104, 111])], d) := by
  have hallows : FileStore.empty.AllowsAll callsTwo :=
    ⟨trivial, ⟨by decide, by decide⟩, ⟨by decide, by decide⟩, ⟨[104, 111], by decide, .inr (by decide)⟩,
      trivial⟩
  have hresults : (FileStore.empty.execs callsTwo).1 = [(0, []), (2, []), (1, []), (2, [104, 111])] := by
    decide
  obtain ⟨d, hrun, -⟩ := fileStore_refines FileStore.holds_empty hallows
  rw [hresults] at hrun
  exact ⟨d, hrun⟩

end PicoShell.Fs
