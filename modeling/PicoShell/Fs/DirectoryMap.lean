import PicoShell.Fs.DirectoryOps

namespace PicoShell.Fs

variable {es : List Dirent} {e : Dirent} {name : List UInt8} {k : ℕ}

def NamesDistinct (es : List Dirent) : Prop :=
  es.Pairwise fun e e' => e.valid = true → e'.valid = true → e.key ≠ e'.key

theorem findEntry_eq_none : findEntry es name = none ↔
    ∀ e ∈ es, e.valid = true → e.key ≠ name := by
  rw [findEntry, List.find?_eq_none]
  simp

theorem findEntry_some (h : findEntry es name = some e) :
    e ∈ es ∧ e.valid = true ∧ e.key = name := by
  have hhit := List.find?_some h
  simp only [Bool.and_eq_true, beq_iff_eq] at hhit
  exact ⟨List.mem_of_find?_eq_some h, hhit⟩

theorem lookupEntry_eq_neg_one (h : ∀ e ∈ es, e.valid = true → 0 ≤ e.inum.toInt) :
    lookupEntry es name = -1 ↔ ∀ e ∈ es, e.valid = true → e.key ≠ name := by
  rw [← findEntry_eq_none, lookupEntry]
  cases hf : findEntry es name with
  | none => simp
  | some e =>
    obtain ⟨hmem, hv, -⟩ := findEntry_some hf
    have hpos := h e hmem hv
    constructor
    · intro (hneg : e.inum.toInt = -1)
      omega
    · intro hnone
      contradiction

/-- With distinct names a valid slot is what the search for its name finds. -/
theorem findEntry_of_mem (hd : NamesDistinct es) (he : e ∈ es) (hv : e.valid = true) :
    findEntry es e.key = some e := by
  unfold findEntry
  induction es with
  | nil => simp at he
  | cons x xs ih =>
    have hd := List.pairwise_cons.mp hd
    rw [List.find?_cons]
    rcases List.mem_cons.mp he with rfl | he
    · simp [hv]
    · cases hx : x.valid with
      | false => simpa using ih hd.2 he
      | true =>
        have hne : (x.key == e.key) = false := beq_eq_false_iff_ne.mpr (hd.1 e he hx hv)
        simpa [hne] using ih hd.2 he

theorem lookupEntry_of_mem (hd : NamesDistinct es) (he : e ∈ es) (hv : e.valid = true) :
    lookupEntry es e.key = e.inum.toInt := by
  rw [lookupEntry, findEntry_of_mem hd he hv]

/-- The search passes over slots that do not carry the name. -/
theorem entry_miss (h : e.valid = true → e.key ≠ name) : (e.valid && e.key == name) = false := by
  cases hv : e.valid with
  | false => rfl
  | true => simpa using h hv

theorem findEntry_append_ne (hne : e.valid = true → e.key ≠ name) :
    findEntry (es ++ [e]) name = findEntry es name := by
  simp [findEntry, List.find?_append, entry_miss hne]

theorem findEntry_set_ne {x : Dirent} (hx : es[k]? = some x)
    (hold : x.valid = true → x.key ≠ name) (hnew : e.valid = true → e.key ≠ name) :
    findEntry (es.set k e) name = findEntry es name := by
  have hx' := entry_miss hold
  have he' := entry_miss hnew
  unfold findEntry
  induction es generalizing k with
  | nil => rfl
  | cons y ys ih =>
    cases k with
    | zero =>
      rw [List.getElem?_cons_zero, Option.some.injEq] at hx
      subst hx
      rw [List.set_cons_zero, List.find?_cons, List.find?_cons, hx', he']
    | succ k =>
      rw [List.getElem?_cons_succ] at hx
      rw [List.set_cons_succ, List.find?_cons, List.find?_cons]
      cases hy : y.valid && y.key == name with
      | true => rfl
      | false => exact ih hx

theorem NamesDistinct.append (hd : NamesDistinct es)
    (hnew : ∀ x ∈ es, x.valid = true → x.key ≠ e.key) : NamesDistinct (es ++ [e]) := by
  refine List.pairwise_append.mpr ⟨hd, List.pairwise_singleton _ _, ?_⟩
  intro x hx y hy hv _
  rw [List.mem_singleton.mp hy]
  exact hnew x hx hv

theorem NamesDistinct.set (hd : NamesDistinct es)
    (hnew : e.valid = true → ∀ x ∈ es, x.valid = true → x.key ≠ e.key) :
    NamesDistinct (es.set k e) := by
  induction es generalizing k with
  | nil => exact hd
  | cons y ys ih =>
    have hd := List.pairwise_cons.mp hd
    cases k with
    | zero =>
      refine List.pairwise_cons.mpr ⟨?_, hd.2⟩
      intro x hx hv hv'
      exact (hnew hv x (List.mem_cons_of_mem y hx) hv').symm
    | succ k =>
      refine List.pairwise_cons.mpr ⟨?_, ih hd.2 fun hv x hx => hnew hv x (List.mem_cons_of_mem y hx)⟩
      intro x hx hv hv'
      rcases List.mem_or_eq_of_mem_set hx with hx | rfl
      · exact hd.1 x hx hv hv'
      · exact hnew hv' y (by simp) hv

/-- A slot of the directory with a hole at `k` is the hole or an old slot. -/
theorem mem_set_hole {e : Dirent} (he : e ∈ es.set k Dirent.hole) :
    e = Dirent.hole ∨ ∃ l, l ≠ k ∧ es[l]? = some e := by
  obtain ⟨l, hl⟩ := List.mem_iff_getElem?.mp he
  rw [List.getElem?_set] at hl
  split_ifs at hl with hkl hlt
  · exact .inl (Option.some.inj hl).symm
  · exact .inr ⟨l, Ne.symm hkl, hl⟩

theorem slot_unique (hnames : NamesDistinct es) {l : ℕ} {e' : Dirent} (hk : es[k]? = some e)
    (hl : es[l]? = some e') (hv : e.valid = true) (hv' : e'.valid = true) (hkey : e.key = e'.key) :
    k = l := by
  have hnames := List.pairwise_iff_getElem.mp hnames
  obtain ⟨hlt, rfl⟩ := List.getElem?_eq_some_iff.mp hk
  obtain ⟨hlt', rfl⟩ := List.getElem?_eq_some_iff.mp hl
  rcases lt_trichotomy k l with h | h | h
  · exact absurd hkey (hnames k l hlt hlt' h hv hv')
  · exact h
  · exact absurd hkey.symm (hnames l k hlt' hlt h hv' hv)

def CanGrow (d : Disk) (i : ℕ) : Prop :=
  (d.inode i).len < maxFileSize ∧
    (¬ blockSize ∣ (d.inode i).len ∨ ∃ b < numDataBlocks, d.dataBit b = false)

def HasHole (d : Disk) (i : ℕ) : Prop := ∃ e ∈ d.entries (d.inode i), e.valid = false

def HasName (d : Disk) (i : ℕ) (name : List UInt8) : Prop :=
  ∃ e ∈ d.entries (d.inode i), e.valid = true ∧ e.key = name

/-- Result `r` and disk `d'` of adding `e` to directory `i` as to a finite map with holes. -/
structure AddsEntry (d : Disk) (i : ℕ) (e : Dirent) (r : ℤ) (d' : Disk) : Prop where
  returns : r = 0 ∨ r = -1
  zero_iff : r = 0 ↔ ¬ HasName d i e.key ∧ (HasHole d i ∨ CanGrow d i)
  lookup : r = 0 → dirLookup d' i e.key = .ok e.inum.toInt
  other : r = 0 → ∀ name, name ≠ e.key → dirLookup d' i name = dirLookup d i name
  distinct : r = 0 → NamesDistinct (d'.entries (d'.inode i))
  size : r = 0 → HasHole d i → (d'.inode i).size = (d.inode i).size
  first : r = 0 → ∀ k, FirstSlot (d.entries (d.inode i)) (fun x => !x.valid) k →
    ∃ x, x.valid = true ∧ x.key = e.key ∧ x.inum = e.inum ∧
      d'.entries (d'.inode i) = (d.entries (d.inode i)).set k x
  failed : r = -1 → d' = d

section Adds

variable {d d' : Disk} {S : ℕ → Prop} {i : ℕ}

theorem not_hasName_iff (name : List UInt8)
    (hinum : ∀ e ∈ d.entries (d.inode i), e.valid = true → 0 ≤ e.inum.toInt) :
    ¬ HasName d i name ↔ lookupEntry (d.entries (d.inode i)) name = -1 := by
  rw [lookupEntry_eq_neg_one hinum]
  unfold HasName
  push Not
  rfl

/-- Nothing is promised about a refused entry but the refusal. -/
theorem AddsEntry.refused (h : ¬ (¬ HasName d i e.key ∧ (HasHole d i ∨ CanGrow d i))) :
    AddsEntry d i e (-1) d where
  returns := .inr rfl
  zero_iff := by simpa using h
  lookup h0 := absurd h0 (by decide)
  other h0 := absurd h0 (by decide)
  distinct h0 := absurd h0 (by decide)
  size h0 := absurd h0 (by decide)
  first h0 := absurd h0 (by decide)
  failed _ := rfl

theorem dirLookup_written {p n : ℕ} {s : ℕ → UInt8} (h : Written d d' S i p n s) (hi : S i)
    (hdir : (d.inode i).type = .directoryT) (hwhole : 64 ∣ max (d.inode i).len (p + n))
    (name : List UInt8) :
    dirLookup d' i name = .ok (lookupEntry (d'.entries (d'.inode i)) name) := by
  apply dirLookup_eq (h.wellFormed.ok hi).legible (h.wellFormed.lt i hi) (by rw [h.type, hdir])
  rwa [h.len]

theorem AddsEntry.appended (hd : WellFormedOn d S) (hi : S i)
    (hdir : (d.inode i).type = .directoryT) (hwhole : 64 ∣ (d.inode i).len)
    (hdist : NamesDistinct (d.entries (d.inode i))) (hv : e.valid = true)
    (hnew : ¬ HasName d i e.key) (hall : ∀ x ∈ d.entries (d.inode i), x.valid = true)
    (hgrow : CanGrow d i)
    (h : Written d d' S i (64 * ((d.inode i).len / 64)) 64 e.encode.get) :
    AddsEntry d i e 0 d' := by
  have hlen : 64 * ((d.inode i).len / 64) = (d.inode i).len := by omega
  have hentries := entries_written_append h hlen.symm
  rw [Dirent.decode_encode] at hentries
  have hlook := dirLookup_written h hi hdir (by omega)
  have hdist' : NamesDistinct (d'.entries (d'.inode i)) := by
    rw [hentries]
    exact hdist.append fun x hx hxv hk => hnew ⟨x, hx, hxv, hk⟩
  have hnohole : ¬ HasHole d i := by
    rintro ⟨x, hx, hxv⟩
    rw [hall x hx] at hxv
    contradiction
  refine ⟨.inl rfl, ?_, ?_, ?_, fun _ => hdist', ?_, ?_, ?_⟩
  · simpa using ⟨hnew, Or.inr hgrow⟩
  · intro _
    rw [hlook, lookupEntry_of_mem hdist' _ hv]
    rw [hentries]
    simp
  · intro _ name hne
    rw [hlook, hentries, lookupEntry, findEntry_append_ne fun _ => hne.symm, ← lookupEntry,
      dirLookup_eq (hd.ok hi).legible (hd.lt i hi) hdir hwhole]
  · exact fun _ hh => absurd hh hnohole
  · rintro - k ⟨⟨x, hx, hxv⟩, -⟩
    exact absurd ⟨x, List.mem_of_getElem? hx, by simpa using hxv⟩ hnohole
  · exact fun h0 => absurd h0 (by decide)

/-- The first invalidated slot received some bytes: they have to be the entry. -/
theorem addsEntry_reused_iff {stack : Bytes 64} (hd : WellFormedOn d S) (hi : S i)
    (hdir : (d.inode i).type = .directoryT) (hwhole : 64 ∣ (d.inode i).len)
    (hdist : NamesDistinct (d.entries (d.inode i)))
    (hnew : ¬ HasName d i e.key)
    (hk : FirstSlot (d.entries (d.inode i)) (fun x => !x.valid) k)
    (hin : 64 * k + 64 ≤ (d.inode i).len) (h : Written d d' S i (64 * k) 64 stack.get) :
    AddsEntry d i e 0 d' ↔ (Dirent.decode stack).valid = true ∧
      (Dirent.decode stack).key = e.key ∧ (Dirent.decode stack).inum = e.inum := by
  have hentries := entries_written_set h hin
  have hlook := dirLookup_written h hi hdir (by omega)
  have hslot : (d'.entries (d'.inode i))[k]? = some (Dirent.decode stack) := by
    rw [hentries, List.getElem?_set_self]
    simp
    omega
  obtain ⟨⟨x, hx, hxv⟩, hfirst⟩ := hk
  have hxv : x.valid = false := by simpa using hxv
  constructor
  · -- the first slot has to hold the entry
    intro ha
    obtain ⟨y, hyv, hyk, hyi, hy⟩ := ha.first rfl k ⟨⟨x, hx, by simpa using hxv⟩, hfirst⟩
    have : (d'.entries (d'.inode i))[k]? = some y := by
      rw [hy, List.getElem?_set_self]
      simp
      omega
    rw [hslot, Option.some.injEq] at this
    rw [this]
    exact ⟨hyv, hyk, hyi⟩
  · rintro ⟨hv, hkey, hi'⟩
    have hdist' : NamesDistinct (d'.entries (d'.inode i)) := by
      rw [hentries]
      apply hdist.set
      intro _ y hy hyv heq
      exact hnew ⟨y, hy, hyv, heq.trans hkey⟩
    have hhole : HasHole d i := ⟨x, List.mem_of_getElem? hx, hxv⟩
    have hmem := List.mem_of_getElem? hslot
    refine ⟨.inl rfl, ?_, ?_, ?_, fun _ => hdist', ?_, ?_, ?_⟩
    · simpa using ⟨hnew, Or.inl hhole⟩
    · intro _
      rw [hlook, ← hkey, lookupEntry_of_mem hdist' hmem hv, hi']
    · intro _ name hne
      rw [hlook, hentries, lookupEntry, findEntry_set_ne hx, ← lookupEntry,
        dirLookup_eq (hd.ok hi).legible (hd.lt i hi) hdir hwhole]
      · exact fun ht => absurd ht (by simp [hxv])
      · exact fun _ => hkey.trans_ne hne.symm
    · intro _ _
      apply Int32.toInt_inj.mp
      rw [h.size, (hd.ok hi).size_eq]
      omega
    · rintro - l hl
      have hlk : l = k := FirstSlot.unique hl ⟨⟨x, hx, by simpa using hxv⟩, hfirst⟩
      subst hlk
      exact ⟨_, hv, hkey, hi', hentries⟩
    · exact fun h0 => absurd h0 (by decide)

end Adds

/-- `dir_add` treats the directory as a finite map with holes exactly when it does not reuse a
slot, or the memory at its parameter happens to spell the entry. -/
theorem dirAdd_adds_iff (d : Disk) (hd : WellFormed d) (hdirs : DirsOk d (Allocated d)) (i : ℕ)
    (hi : Allocated d i) (hdir : (d.inode i).type = .directoryT) (e : Dirent)
    (hv : e.valid = true) (stack : Bytes 64) :
    ∃ r d', dirAdd d i e stack = .ok (r, d') ∧
      (AddsEntry d i e r d' ↔ HasName d i e.key ∨ ¬ HasHole d i ∨
        (Dirent.decode stack).valid = true ∧ (Dirent.decode stack).key = e.key ∧
          (Dirent.decode stack).inum = e.inum) := by
  have hwhole := hdirs.whole i hi hdir
  obtain ⟨-, hrange, hdist⟩ := hdirs.entries i hi hdir
  have hname := not_hasName_iff e.key fun x hx hxv => (hrange x hx hxv).1
  rcases dirAdd_cases e stack hd hi hdir hwhole with
    ⟨hdup, hrun⟩ | ⟨hnew, k, d', hk, hin, hw, hrun⟩ | ⟨hnew, hall, hfull, hrun⟩ |
    ⟨hnew, hall, hroom, d', -, hw, hrun⟩
  · have hhas : HasName d i e.key := by
      by_contra hno
      exact hdup (hname.mp hno)
    refine ⟨-1, d, hrun, iff_of_true (AddsEntry.refused ?_) (.inl hhas)⟩
    exact fun h => h.1 hhas
  · have hnew := hname.mpr hnew
    refine ⟨0, d', hrun, (addsEntry_reused_iff hd hi hdir hwhole hdist hnew hk hin hw).trans ?_⟩
    obtain ⟨⟨x, hx, hxv⟩, -⟩ := hk
    have hhole : HasHole d i := ⟨x, List.mem_of_getElem? hx, by simpa using hxv⟩
    constructor
    · exact fun h => .inr (.inr h)
    · rintro (h | h | h)
      · exact absurd h hnew
      · exact absurd hhole h
      · exact h
  all_goals
    have hnohole : ¬ HasHole d i := by
      rintro ⟨x, hx, hxv⟩
      rw [hall x hx] at hxv
      contradiction
  · refine ⟨-1, d, hrun, iff_of_true (AddsEntry.refused ?_) (.inr (.inl hnohole))⟩
    rintro ⟨-, h | ⟨hlt, hgrow⟩⟩
    · exact hnohole h
    · rcases hfull with hfull | ⟨hdvd, hfull⟩
      · simp [hfull] at hlt
      · rcases hgrow with hgrow | ⟨b, hb, hfree⟩
        · exact hgrow hdvd
        · rw [hfull b hb] at hfree
          contradiction
  · refine ⟨0, d', hrun, iff_of_true ?_ (.inr (.inl hnohole))⟩
    exact AddsEntry.appended hd hi hdir hwhole hdist hv (hname.mpr hnew) hall hroom hw

def holeInode : Inode := ⟨.directoryT, 0, 64, 1, fun k => if k = 0 then 0 else -1⟩

def holeDisk : Disk := (Disk.zeroed.takeInode holeInode 0).setDataBit 0

theorem inode_holeDisk : holeDisk.inode 0 = holeInode := by
  rw [holeDisk, Disk.inode_setDataBit _ _ (by decide),
    Disk.inode_takeInode _ _ (by decide) (by decide), if_pos rfl]
  rfl

theorem allocated_holeDisk (i : ℕ) : Allocated holeDisk i ↔ i = 0 := by
  unfold Allocated holeDisk
  rw [Disk.inodeBit_setDataBit, Disk.inodeBit_takeInode _ _ _ (by decide), Disk.inodeBit_zeroed]
  simp
  omega

theorem addr_holeInode {k : ℕ} (hk : k < 12) : holeInode.addr k = if k = 0 then 0 else -1 := by
  rw [Inode.addr_of_lt _ hk]
  by_cases h : k = 0
  · subst h
    rfl
  · have hne : (⟨k, hk⟩ : Fin 12) ≠ 0 := by simpa [Fin.ext_iff] using h
    rw [if_neg h, holeInode]
    simp only [hne, ↓reduceIte]
    rfl

theorem wellFormed_holeDisk : WellFormed holeDisk := by
  have hbit : holeDisk.dataBit 0 = true := by
    rw [holeDisk, Disk.dataBit_setDataBit _ _ (by decide)]
    rfl
  have hlen : holeInode.len = 64 := rfl
  have hget : ∀ i, Allocated holeDisk i → i = 0 ∧ holeDisk.inode i = holeInode := by
    intro i hi
    obtain rfl := (allocated_holeDisk i).mp hi
    exact ⟨rfl, inode_holeDisk⟩
  constructor
  case lt => exact fun i hi => hi.1
  case unshared =>
    intro i j hi hj k hk l hl hset heq
    rw [(hget i hi).2, addr_holeInode hk] at hset heq
    rw [(hget j hj).2, addr_holeInode hl] at heq
    refine ⟨(hget i hi).1.trans (hget j hj).1.symm, ?_⟩
    split_ifs at hset heq <;> omega
  all_goals
    intro i hi
    obtain ⟨rfl, hx⟩ := hget i hi
    rw [hx]
  case inum => rfl
  case size_nonneg => decide
  case size_le => decide
  all_goals
    intro k hk
    rw [addr_holeInode hk]
  case addrs =>
    rw [hlen]
    split_ifs <;> omega
  case range => split_ifs <;> simp
  case marked =>
    split_ifs with h
    · exact fun _ => hbit
    · exact fun hne => absurd rfl hne

theorem entries_holeDisk : holeDisk.entries (holeDisk.inode 0) = [Dirent.hole] := by
  rw [inode_holeDisk]
  have hslot : holeDisk.entry holeInode 0 = Dirent.hole := by
    unfold Disk.entry Dirent.hole
    congr 1
    funext i
    simp [Disk.byte, holeDisk, Bytes.zero]
  exact congrArg (fun e => [e]) hslot

theorem dirsOk_holeDisk : DirsOk holeDisk (Allocated holeDisk) := by
  constructor
  all_goals
    intro i hi _
    obtain rfl := (allocated_holeDisk i).mp hi
  · rw [inode_holeDisk]
    decide
  · rw [entries_holeDisk]
    constructor <;> simp

/-- The entry `c`, and a stack with the address `0x7ffd4a3c9d40` of such an entry. -/
def entryC : Dirent := ⟨true, Bytes.ofList 59 [99], 1⟩

def pointerStack : Bytes 64 := Bytes.ofList 64 [0x40, 0x9d, 0x3c, 0x4a, 0xfd, 0x7f]

/-- Adding `c` to the directory with a hole succeeds and stores the pointer. -/
theorem dirAdd_hole_not_adds : WellFormed holeDisk ∧ DirsOk holeDisk (Allocated holeDisk) ∧
    Allocated holeDisk 0 ∧ (holeDisk.inode 0).type = .directoryT ∧ entryC.valid = true ∧
    entryC.key = [99] ∧
    ∃ d', dirAdd holeDisk 0 entryC pointerStack = .ok (0, d') ∧
      dirLookup d' 0 [99] = .ok (-1) ∧ ¬ AddsEntry holeDisk 0 entryC 0 d' := by
  have hi : Allocated holeDisk 0 := (allocated_holeDisk 0).mpr rfl
  have hdir : (holeDisk.inode 0).type = .directoryT := by
    rw [inode_holeDisk]
    rfl
  have hwhole := dirsOk_holeDisk.whole 0 hi hdir
  have hnot : ¬ ((Dirent.decode pointerStack).valid = true ∧
      (Dirent.decode pointerStack).key = entryC.key ∧
      (Dirent.decode pointerStack).inum = entryC.inum) := by
    rintro ⟨-, hkey, -⟩
    revert hkey
    decide
  refine ⟨wellFormed_holeDisk, dirsOk_holeDisk, hi, hdir, rfl, by decide, ?_⟩
  have hlook : lookupEntry (holeDisk.entries (holeDisk.inode 0)) entryC.key = -1 := by
    rw [entries_holeDisk]
    rfl
  rcases dirAdd_cases entryC pointerStack wellFormed_holeDisk hi hdir hwhole with
    ⟨hdup, -⟩ | ⟨-, k, d', hk, hin, hw, hrun⟩ | ⟨-, hall, -⟩ | ⟨-, hall, -⟩
  · exact absurd hlook hdup
  · have hnew : ¬ HasName holeDisk 0 entryC.key := by
      rintro ⟨x, hx, hv, -⟩
      rw [entries_holeDisk, List.mem_singleton] at hx
      rw [hx] at hv
      contradiction
    have hdist : NamesDistinct (holeDisk.entries (holeDisk.inode 0)) := by
      rw [entries_holeDisk]
      exact List.pairwise_singleton _ _
    have hlen : (holeDisk.inode 0).len = 64 := by
      rw [inode_holeDisk]
      rfl
    refine ⟨d', hrun, ?_, ?_⟩
    · have hk0 : k = 0 := by omega
      rw [dirLookup_written hw hi hdir (by omega), entries_written_set hw hin, entries_holeDisk, hk0]
      decide
    · rw [addsEntry_reused_iff wellFormed_holeDisk hi hdir hwhole hdist hnew hk hin hw]
      exact hnot
  all_goals
    have := hall Dirent.hole (by rw [entries_holeDisk]; simp)
    contradiction

def emptyDir : Disk := Disk.zeroed.takeInode ⟨.directoryT, 0, 0, 0, fun _ => -1⟩ 0

/-- Adding `c` to the directory without slots. -/
theorem dirAdd_adds_emptyDir : ∃ r d', dirAdd emptyDir 0 entryC pointerStack = .ok (r, d') ∧
    AddsEntry emptyDir 0 entryC r d' := by
  have hinode : emptyDir.inode 0 = ⟨.directoryT, 0, 0, 0, fun _ => -1⟩ := by
    rw [emptyDir, Disk.inode_takeInode _ _ (by decide) (by decide), if_pos rfl]
    rfl
  have hentries : emptyDir.entries (emptyDir.inode 0) = [] := by
    rw [hinode]
    rfl
  have halloc : ∀ i, Allocated emptyDir i ↔ i = 0 := by
    intro i
    unfold Allocated emptyDir
    rw [Disk.inodeBit_takeInode _ _ _ (by decide), Disk.inodeBit_zeroed]
    simp
    omega
  have hwf : WellFormed emptyDir := by
    have h := (wellFormedOn_empty Disk.zeroed).takeInode (i := 0)
      (x := ⟨.directoryT, 0, 0, 0, fun _ => -1⟩) ⟨rfl, fun _ => rfl⟩ (by decide)
    exact h.mono fun i hi => .inr ((halloc i).mp hi)
  have hdirs : DirsOk emptyDir (Allocated emptyDir) := by
    constructor
    all_goals
      intro i hi _
      obtain rfl := (halloc i).mp hi
    · rw [hinode]
      decide
    · rw [hentries]
      constructor <;> simp
  obtain ⟨r, d', hrun, hiff⟩ := dirAdd_adds_iff emptyDir hwf hdirs 0 ((halloc 0).mpr rfl)
    (by rw [hinode]) entryC rfl pointerStack
  refine ⟨r, d', hrun, hiff.mpr (.inr (.inl ?_))⟩
  rintro ⟨x, hx, -⟩
  rw [hentries] at hx
  simp at hx

end PicoShell.Fs
