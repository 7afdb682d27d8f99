import PicoShell.Fs.CreateLookup
import PicoShell.Lib.Names

/-! What `fs_create`, `fs_delete` and `path_lookup` do, told without inodes, blocks and slots: a set
of paths, the directories that lost an entry, and the number of inodes taken. -/

namespace PicoShell.Fs

/-- A file system as its calls see it. -/
structure Catalog where
  /-- The paths of the directories. -/
  names : Walk.Names (List UInt8) dotName dotDotName
  /-- Where an entry was removed. -/
  scarred : Finset (List (List UInt8))
  inodes : ℕ

namespace Catalog

def init : Catalog := ⟨.single _ _ _, ∅, 1⟩

def find (t : Catalog) (path : CString) : Option (List (List UInt8)) :=
  if path.bytes.head? = some slash then t.names.resolve (components path.bytes) else none

/-- The directory that a path leads to but for its last component, and that component. -/
def place (t : Catalog) (path : CString) : Option (List (List UInt8) × List UInt8) :=
  if path.bytes.head? = some slash then
    (t.names.resolve (components path.bytes).dropLast).map fun p =>
      (p, (components path.bytes).getLastD [])
  else none

/-- `c` is new in `p`, and there is an inode for it. -/
def Admits (t : Catalog) (type : FileType) (p : List (List UInt8)) (c : List UInt8) : Prop :=
  (type = .fileT ∨ type = .directoryT) ∧ t.names.next p c = none ∧ t.inodes < 80

instance (t : Catalog) (type : FileType) (p : List (List UInt8)) (c : List UInt8) :
    Decidable (t.Admits type p c) := inferInstanceAs (Decidable (_ ∧ _))

def Leaf (t : Catalog) (type : FileType) (p : List (List UInt8)) (c : List UInt8) : Prop :=
  (type = .fileT ∨ type = .directoryT) ∧ ¬ IsDot c ∧ p ++ [c] ∈ t.names.dirs ∧
    ∀ r ∈ t.names.dirs, r ≠ [] → r.dropLast ≠ p ++ [c]

instance (t : Catalog) (type : FileType) (p : List (List UInt8)) (c : List UInt8) :
    Decidable (t.Leaf type p c) := inferInstanceAs (Decidable (_ ∧ _))

/-- `fs_create`: a file takes an inode and gets no name. -/
def create (t : Catalog) (path : CString) (type : FileType) : ℤ × Catalog :=
  match t.place path with
  | none => (-1, t)
  | some (p, c) =>
    if t.Admits type p c then
      (0, { t with
        names := if type = .directoryT then t.names.insert p c else t.names
        inodes := t.inodes + 1 })
    else (-1, t)

/-- `fs_delete`: it fails even where it removes a directory, and the inode stays taken. -/
def delete (t : Catalog) (path : CString) (type : FileType) : ℤ × Catalog :=
  match t.place path with
  | none => (-1, t)
  | some (p, c) =>
    if t.Leaf type p c then
      (-1, { t with names := t.names.erase p c, scarred := insert p t.scarred })
    else (-1, t)

def exec (t : Catalog) : Call → ℤ × Catalog
  | .create path type _ _ => t.create path type
  | .delete path type _ => t.delete path type

/-- The call does not make a directory where an entry was removed. -/
def Sound (t : Catalog) : Call → Prop
  | .create path type _ _ => ∀ q ∈ t.place path, type = .directoryT → t.Admits type q.1 q.2 →
      q.1 ∉ t.scarred
  | .delete _ _ _ => True

instance (t : Catalog) : DecidablePred t.Sound
  | .create path _ _ _ => inferInstanceAs (Decidable (∀ q ∈ t.place path, _))
  | .delete _ _ _ => inferInstanceAs (Decidable True)

def execs (t : Catalog) : List Call → List ℤ × Catalog
  | [] => ([], t)
  | call :: calls => ((t.exec call).1 :: ((t.exec call).2.execs calls).1, ((t.exec call).2.execs calls).2)

def SoundFor (t : Catalog) : List Call → Prop
  | [] => True
  | call :: calls => t.Sound call ∧ (t.exec call).2.SoundFor calls

instance soundForDecidable (t : Catalog) : (calls : List Call) → Decidable (t.SoundFor calls)
  | [] => inferInstanceAs (Decidable True)
  | call :: calls =>
    have := soundForDecidable (t.exec call).2 calls
    inferInstanceAs (Decidable (_ ∧ _))

end Catalog

/-- The path is relative, or its components fit. -/
def Short (path : CString) : Prop :=
  path.bytes.head? = some slash → ∀ c ∈ components path.bytes, c.length ≤ 58

/-- The path is relative, or its components are some that fit. -/
def Usable (path : CString) : Prop := path.bytes.head? = some slash → Legal path

namespace Call

def path : Call → CString
  | create path _ _ _ => path
  | delete path _ _ => path

def execs (d : Disk) : List Call → Exec (List ℤ × Disk)
  | [] => .ok ([], d)
  | call :: calls => do
    let (r, d) ← call.exec d
    let (rs, d) ← execs d calls
    return (r :: rs, d)

end Call

variable {d d' d₀ : Disk} {S : ℕ → Prop} {n : ℕ} {t : Catalog} {path : CString} {type : FileType}

theorem Catalog.mem_of_find {p : List (List UInt8)} (h : t.find path = some p) :
    p ∈ t.names.dirs := by
  unfold find at h
  split_ifs at h
  exact Walk.Names.mem_of_resolve h

theorem Tree.count_eq {S' : ℕ → Prop} {n' : ℕ} (h : Tree d S n) (h' : Tree d' S' n')
    (hbits : ∀ i, d'.inodeBit i = d.inodeBit i) : n = n' := by
  have hiff : ∀ i < 80, (i < n ↔ i < n') := fun i hi => by
    rw [← h.bits i hi, ← hbits i, h'.bits i hi]
  have hle := h.le
  have hle' := h'.le
  by_contra hne
  rcases Nat.lt_or_gt_of_ne hne with hlt | hlt
  · have := (hiff n (by omega)).mpr hlt
    omega
  · have := (hiff n' (by omega)).mp hlt
    omega

structure Catalog.Depicts (t : Catalog) (d : Disk) (S : ℕ → Prop) : Prop where
  settled : Settled d S t.inodes
  names : t.names.Of d.next 0
  whole : ∀ p i, Walk.DotFree dotName dotDotName p → Walk.walk d.next 0 p = some i →
    p ∉ t.scarred → ∀ e ∈ d.entries (d.inode i), e.valid = true

/-- Directories that are there before and behind a call keep their inodes. -/
def Catalog.Keeps (t t' : Catalog) (d d' : Disk) : Prop :=
  ∀ p ∈ t.names.dirs, p ∈ t'.names.dirs → Walk.walk d'.next 0 p = Walk.walk d.next 0 p

theorem Catalog.Keeps.refl (t : Catalog) (d : Disk) : t.Keeps t d d := fun _ _ _ => rfl

namespace Catalog.Depicts

theorem init (hboot : Booted d) : Catalog.init.Depicts d (· < 1) := by
  have honly := hboot.rootOnly
  have hroot : ∀ p i, Walk.DotFree dotName dotDotName p → Walk.walk d.next 0 p = some i → p = [] := by
    intro p i hp hw
    cases p with
    | nil => rfl
    | cons c p =>
      obtain ⟨hdot, hup⟩ := hp c (by simp)
      rw [Walk.walk_cons, honly.next, if_neg fun hc => hc.elim hdot hup] at hw
      contradiction
  refine ⟨honly.settled, ?_, ?_⟩
  · intro p hp
    rw [Catalog.init, Walk.Names.single, Finset.mem_singleton]
    constructor
    · rintro rfl
      simp
    · intro hw
      obtain ⟨i, hi⟩ := Option.ne_none_iff_exists'.mp hw
      exact hroot p i hp hi
  · intro p i hp hw _
    obtain rfl := hroot p i hp hw
    obtain rfl := Option.some.inj hw
    exact honly.noHoles 0 Nat.one_pos honly.type

variable (h : t.Depicts d S)
include h

theorem lookup (hpath : Short path) (name : NameBuf) : pathLookup d path name =
    .ok (((t.find path).bind (Walk.walk d.next 0)).map d.inode) := by
  rw [pathLookup, h.settled.tree.nav.resolve_eq]
  unfold find
  split_ifs with habs
  · obtain ⟨name', hrun⟩ := follow_walk d 0 name fun c hc => Nat.lt_succ_of_le (hpath habs c hc)
    rw [hrun, ← h.settled.tree.graph.walk_eq h.names]
    rfl
  · rfl

theorem lookup_found (hpath : Short path) {p : List (List UInt8)} (hp : t.find path = some p)
    (name : NameBuf) : ∃ i, pathLookup d path name = .ok (some (d.inode i)) ∧
      Walk.walk d.next 0 p = some i ∧ (d.inode i).inum.toInt = i ∧
      (d.inode i).type = .directoryT := by
  have ht := h.settled.tree
  obtain ⟨i, hi⟩ := Walk.Names.walk_of_mem h.names (mem_of_find hp)
  refine ⟨i, ?_, hi, ht.nav.wf.inum i (ht.nav.closed.walk ht.nav.root hi), ht.graph.walk_dir hi⟩
  rw [h.lookup hpath name, hp, Option.bind_some, hi, Option.map_some]

theorem lookupParent (hpath : Usable path) (name : NameBuf) :
    ∃ name', pathLookupParent d path name =
        .ok ((t.place path).bind fun q => (Walk.walk d.next 0 q.1).map d.inode, name') ∧
      ∀ p c, t.place path = some (p, c) →
        Legal path ∧ name'.cstr = c ∧ c ≠ [] ∧ p ∈ t.names.dirs := by
  have ht := h.settled.tree
  unfold place
  by_cases habs : path.bytes.head? = some slash
  · simp only [if_pos habs]
    obtain ⟨cs, c, name', hcs, hparent, hkey⟩ := ht.nav.lookupParent_legal (hpath habs) name
    have hmem : c ∈ components path.bytes := by simp [hcs]
    have hc := (mem_components hmem).1
    refine ⟨name', ?_, ?_⟩
    · rw [hparent, hcs, List.dropLast_concat, ht.graph.walk_eq h.names cs]
      cases hp : t.names.resolve cs with
      | none => rfl
      | some p =>
        obtain ⟨i, hi⟩ := Walk.Names.walk_of_mem h.names (Walk.Names.mem_of_resolve hp)
        have hdir := ht.graph.walk_dir hi
        simp only [Option.bind_some, hi, if_pos hdir, Option.map_some]
    · intro p b hq
      rw [hcs, List.dropLast_concat, List.getLastD_concat] at hq
      obtain ⟨q, hp, hqb⟩ := Option.map_eq_some_iff.mp hq
      obtain ⟨rfl, rfl⟩ := Prod.mk.inj hqb
      have hmem := Walk.Names.mem_of_resolve hp
      obtain ⟨i, hi⟩ := Walk.Names.walk_of_mem h.names hmem
      refine ⟨hpath habs, hkey ?_, hc, hmem⟩
      rw [ht.graph.walk_eq h.names cs, hp, Option.bind_some, hi]
      exact Option.some_ne_none i
  · simp only [if_neg habs]
    refine ⟨name, ?_, fun _ _ hq => absurd hq (by simp)⟩
    rw [pathLookupParent, ht.nav.resolve_eq, if_neg habs]
    rfl

/-- A label on the disk leads where it leads in the catalog. -/
theorem next_eq {p : List (List UInt8)} {i : ℕ} (hp : p ∈ t.names.dirs)
    (hi : Walk.walk d.next 0 p = some i) (c : List UInt8) :
    d.next i c = none ↔ t.names.next p c = none := by
  rw [h.settled.tree.graph.next_eq h.names hp hi c]
  cases hq : t.names.next p c with
  | none => simp
  | some q =>
    obtain ⟨j, hj⟩ := Walk.Names.walk_of_mem h.names (t.names.closed p c q hp hq)
    simp [hj]

theorem not_makes (hno : ∀ p c, t.place path = some (p, c) → ¬ t.Admits type p c) (hpath : Usable path)
    (name : NameBuf) : ¬ Makes d path type name := by
  have ht := h.settled.tree
  rintro ⟨htype, ⟨k, hk, hfree⟩, x, name', hparent, hnew⟩
  obtain ⟨name'', hrun, hkey⟩ := h.lookupParent hpath name
  rw [hparent] at hrun
  obtain ⟨hx, rfl⟩ := Exec.ok_inj hrun
  obtain ⟨⟨p, c⟩, hq, hx⟩ := Option.bind_eq_some_iff.mp hx.symm
  obtain ⟨i, hi, rfl⟩ := Option.map_eq_some_iff.mp hx
  obtain ⟨-, hc, -, hmem⟩ := hkey p c hq
  have hS := ht.nav.closed.walk ht.nav.root hi
  refine hno p c hq ⟨htype, ?_, ?_⟩
  · rw [← h.next_eq hmem hi, ← hc]
    rw [ht.nav.wf.uintOf_inum hS, ht.nav.dirLookup hS] at hnew
    cases hnext : d.next i name'.cstr with
    | none => rfl
    | some j =>
      have hne : (j : ℤ) ≠ -1 := by omega
      rw [hnext] at hnew
      exact absurd (Except.ok.inj hnew) hne
  · by_contra hfull
    rw [(ht.bits k hk).mpr (by omega)] at hfree
    contradiction

theorem makes {p : List (List UInt8)} {c : List UInt8} (hq : t.place path = some (p, c))
    (hadmits : t.Admits type p c) (hpath : Usable path) (name : NameBuf) :
    Makes d path type name := by
  have ht := h.settled.tree
  obtain ⟨htype, hnew, hn⟩ := hadmits
  obtain ⟨name', hrun, hkey⟩ := h.lookupParent hpath name
  obtain ⟨-, hc, -, hmem⟩ := hkey p c hq
  obtain ⟨i, hi⟩ := Walk.Names.walk_of_mem h.names hmem
  have hS := ht.nav.closed.walk ht.nav.root hi
  rw [hq, Option.bind_some, hi, Option.map_some] at hrun
  refine ⟨htype, ⟨t.inodes, hn, ?_⟩, d.inode i, name', hrun, ?_⟩
  · by_contra hbit
    exact absurd ((ht.bits _ hn).mp (by simpa using hbit)) (lt_irrefl _)
  · rw [ht.nav.wf.uintOf_inum hS, ht.nav.dirLookup hS, hc, (h.next_eq hmem hi c).mpr hnew]

theorem create_refused (hno : ∀ p c, t.place path = some (p, c) → ¬ t.Admits type p c) (hpath : Usable path)
    (name : NameBuf) (stack : ℕ → Bytes 64) : fsCreate d path type name stack = .ok (-1, d) := by
  obtain ⟨name', hparent, -⟩ := h.lookupParent hpath name
  rcases fsCreate_cases h.settled.tree path type name stack with ⟨-, hrun⟩ | ⟨f, hfault, -⟩ |
    ⟨hmakes, -⟩
  · exact hrun
  · rw [hparent] at hfault
    contradiction
  · exact absurd hmakes (h.not_makes hno hpath name)

theorem file (hn : t.inodes < 80) : Depicts { t with inodes := t.inodes + 1 }
    (d.takeInode (freshInode .fileT 1) t.inodes) (fun j => S j ∨ j = t.inodes) ∧
      t.Keeps { t with inodes := t.inodes + 1 } d (d.takeInode (freshInode .fileT 1) t.inodes) := by
  have ht := h.settled.tree
  have hSn : ¬ S t.inodes := fun hS => absurd (ht.budget.lt _ hS) (lt_irrefl _)
  obtain ⟨hset, hedges⟩ := h.settled.takeFile hn
  have hwalk := Walk.walk_congr ht.nav.closed hedges ht.nav.root
  refine ⟨⟨hset, ?_, ?_⟩, fun p _ _ => hwalk p⟩
  · intro p hp
    rw [hwalk, h.names p hp]
  · intro p i hp hw hscar
    rw [hwalk] at hw
    rw [(takeInode_other ht.nav.wf _ hn hSn (ht.nav.closed.walk ht.nav.root hw)).2]
    exact h.whole p i hp hw hscar

theorem directory {p : List (List UInt8)} {c : List UInt8} {i : ℕ} {name' : NameBuf}
    (hp : p ∈ t.names.dirs) (hi : Walk.walk d.next 0 p = some i) (hc : name'.cstr = c) (hnew : d.next i name'.cstr = none) (hn : t.inodes < 80)
    (hscar : p ∉ t.scarred) (hmade : Made d d' S i t.inodes name') :
    Depicts { t with names := t.names.insert p c, inodes := t.inodes + 1 } d'
        (fun j => S j ∨ j = t.inodes) ∧
      t.Keeps { t with names := t.names.insert p c, inodes := t.inodes + 1 } d d' := by
  subst hc
  have ht := h.settled.tree
  have hS := ht.nav.closed.walk ht.nav.root hi
  have hdir := ht.graph.walk_dir hi
  have hdot := ht.not_isDot_of_new hS hdir hnew
  have hedge := fun j hj c => hmade.next (j := j) hn hdir hnew hj c
  have hchild := hmade.next_child hn (ht.nav.wf.inum i hS)
  have hset := h.settled.made hn hS hdir hnew (h.whole p i (t.names.dotFree p hp) hi hscar) hmade
  have hold : ∀ v l, S v → ¬ (v = i ∧ l = name'.cstr) → d'.next v l = d.next v l :=
    fun v l hv hne => by rw [hedge v hv, if_neg hne]
  have hlink : d'.next i name'.cstr = some t.inodes := by rw [hedge i hS, if_pos ⟨rfl, rfl⟩]
  have hleaf : ∀ l, ¬ IsDot l → d'.next t.inodes l = none := fun l hl => by
    rw [hchild, if_neg fun hl' => hl (.inl hl'), if_neg fun hl' => hl (.inr hl')]
  have hwalk := fun q hq =>
    ht.graph.walk_link (p := q) (t.names.dotFree p hp) hi hnew hlink hold hleaf hq
  refine ⟨⟨hset, ht.graph.of_insert h.names hp hi hdot hnew hlink hold hleaf, ?_⟩, ?_⟩
  · intro q j hq hw hqscar e he
    rw [hwalk q hq] at hw
    split_ifs at hw with hqp
    · rw [← Option.some.inj hw, hmade.childEntries] at he
      rcases List.mem_pair.mp he with rfl | rfl
      · rfl
      · rfl
    · have hSj := ht.nav.closed.walk ht.nav.root hw
      by_cases hji : j = i
      · subst hji
        rw [hmade.parentEntries] at he
        rcases List.mem_append.mp he with he | he
        · exact h.whole q j hq hw hqscar e he
        · rw [List.mem_singleton.mp he]
      · rw [(hmade.other j hSj hji).2] at he
        exact h.whole q j hq hw hqscar e he
  · intro q hq _
    rw [hwalk q (t.names.dotFree q hq), if_neg]
    rintro rfl
    obtain ⟨j, hj⟩ := Walk.Names.walk_of_mem h.names hq
    rw [Walk.walk_concat, hi, Option.bind_some, hnew] at hj
    cases hj

/-- `fs_create` does what it does to the catalog. -/
theorem create (hpath : Usable path) (name : NameBuf) (stack : ℕ → Bytes 64)
    (hsound : t.Sound (.create path type name stack)) :
    ∃ d' S', fsCreate d path type name stack = .ok ((t.create path type).1, d') ∧
      (t.create path type).2.Depicts d' S' ∧ t.Keeps (t.create path type).2 d d' := by
  have ht := h.settled.tree
  unfold Catalog.create
  cases hq : t.place path with
  | none =>
    refine ⟨d, S, h.create_refused ?_ hpath name stack, h, .refl t d⟩
    rw [hq]
    exact fun _ _ hq => absurd hq (by simp)
  | some q =>
    obtain ⟨p, c⟩ := q
    dsimp only
    by_cases hadmits : t.Admits type p c
    · rw [if_pos hadmits]
      have hmakes := h.makes hq hadmits hpath name
      obtain ⟨name', hparent, hkey⟩ := h.lookupParent hpath name
      obtain ⟨-, hc, -, hmem⟩ := hkey p c hq
      obtain ⟨i, hi⟩ := Walk.Names.walk_of_mem h.names hmem
      rw [hq, Option.bind_some, hi, Option.map_some] at hparent
      rcases fsCreate_cases ht path type name stack with ⟨hno, -⟩ | ⟨f, hfault, -⟩ | ⟨-, k, name'',
        hparent', hk, hdir, hnew, hn, ⟨rfl, hrun⟩ | ⟨rfl, hrun⟩⟩
      · exact absurd hmakes hno
      · rw [hparent] at hfault
        contradiction
      · exact ⟨_, _, hrun, by simpa using h.file hn⟩
      · rw [hparent] at hparent'
        obtain ⟨hki, rfl⟩ := Exec.ok_inj hparent'
        have hS := ht.nav.closed.walk ht.nav.root hi
        obtain rfl := ht.nav.wf.inode_inj hS hk (Option.some.inj hki)
        have hscar := hsound (p, c) hq rfl hadmits
        obtain ⟨d', hlink, hmade⟩ := linkDirectory_spec ht hn hk hdir name' hnew
          (h.whole p i (t.names.dotFree p hmem) hi hscar) stack
        exact ⟨d', _, hrun.trans hlink, h.directory hmem hi hc hnew hn hscar hmade⟩
    · rw [if_neg hadmits]
      refine ⟨d, S, h.create_refused ?_ hpath name stack, h, .refl t d⟩
      intro p' c' hq'
      obtain ⟨rfl, rfl⟩ := Prod.mk.inj (Option.some.inj (hq.symm.trans hq'))
      exact hadmits

theorem leaf_iff {p : List (List UInt8)} {i j : ℕ} {c : List UInt8} (hp : p ∈ t.names.dirs)
    (hi : Walk.walk d.next 0 p = some i) (hdot : ¬ IsDot c) (hj : d.next i c = some j) :
    (∀ r ∈ t.names.dirs, r ≠ [] → r.dropLast ≠ p ++ [c]) ↔
      ∀ e ∈ d.entries (d.inode j), e.valid = true → IsDot e.key := by
  have ht := h.settled.tree
  have hfree := (t.names.dotFree p hp).concat hdot
  have hw : Walk.walk d.next 0 (p ++ [c]) = some j := by rw [Walk.walk_concat, hi, Option.bind_some, hj]
  have hS := ht.nav.closed.walk ht.nav.root hw
  rw [Walk.Names.leaf_iff h.names hfree hw]
  constructor
  · intro hleaf e he hv
    by_contra hkey
    have hnext := next_of_mem (ht.graph.walk_dir hw) (ht.names j hS (ht.graph.walk_dir hw)) he hv
    rw [hleaf e.key hkey] at hnext
    contradiction
  · exact fun hempty l hl => next_of_empty hempty hl

theorem delete_refused (hno : ∀ p c, t.place path = some (p, c) → ¬ t.Leaf type p c)
    (hpath : Usable path) (name : NameBuf) : fsDelete d path type name = .ok (-1, d) := by
  have ht := h.settled.tree
  obtain ⟨name', hparent, hkey⟩ := h.lookupParent hpath name
  rcases fsDelete_cases ht path type name with ⟨-, hrun⟩ | ⟨f, hfault, -⟩ | ⟨hdel, k, name'', j, d₁,
    hparent', hk, -, hnext, -, -, hempty, hdot, -⟩
  · exact hrun
  · rw [hparent] at hfault
    contradiction
  · -- what is deleted is a leaf
    rw [hparent] at hparent'
    obtain ⟨hx, rfl⟩ := Exec.ok_inj hparent'
    obtain ⟨⟨p, c⟩, hq, hx⟩ := Option.bind_eq_some_iff.mp hx
    obtain ⟨i, hi, hik⟩ := Option.map_eq_some_iff.mp hx
    obtain rfl := ht.nav.wf.inode_inj (ht.nav.closed.walk ht.nav.root hi) hk hik
    obtain ⟨-, rfl, -, hmem⟩ := hkey p c hq
    have hleaf := (h.leaf_iff hmem hi hdot hnext).mpr hempty
    refine absurd ⟨hdel.2.1, hdot, ?_, hleaf⟩ (hno p _ hq)
    rw [h.names _ ((t.names.dotFree p hmem).concat hdot), Walk.walk_concat, hi, Option.bind_some, hnext]
    exact Option.some_ne_none j

/-- A directory that is removed is a path less, and leaves a scar. -/
theorem removed {p : List (List UInt8)} {c : List UInt8} {i j k : ℕ} {x : Dirent} {S' : ℕ → Prop}
    (hp : p ∈ t.names.dirs) (hi : Walk.walk d.next 0 p = some i) (hdot : ¬ IsDot c)
    (hnext : d.next i c = some j) (hset : Settled d' S' t.inodes)
    (hempty : ∀ e ∈ d.entries (d.inode j), e.valid = true → IsDot e.key)
    (hx : (d.entries (d.inode i))[k]? = some x) (hxv : x.valid = true) (hxk : x.key = c)
    (hremoved : Removed d d' S i j k) :
    Depicts { t with names := t.names.erase p c, scarred := insert p t.scarred } d' S' ∧
      t.Keeps { t with names := t.names.erase p c, scarred := insert p t.scarred } d d' := by
  have ht := h.settled.tree
  have hS := ht.nav.closed.walk ht.nav.root hi
  have hedge := fun l hl b => hremoved.next (i := l) ht hS (ht.graph.walk_dir hi) hx hxv hl b
  rw [hxk] at hedge
  have hold : ∀ v l, S v → ¬ (v = i ∧ l = c) → d'.next v l = d.next v l :=
    fun v l hv hne => by rw [hedge v hv, if_neg hne]
  have hgone : d'.next i c = none := by rw [hedge i hS, if_pos ⟨rfl, rfl⟩]
  have hleaf : ∀ l, ¬ IsDot l → d.next j l = none := fun l hl => next_of_empty hempty hl
  have hwalk := fun q hq =>
    ht.graph.walk_unlink (p := q) (t.names.dotFree p hp) hi hnext hleaf hgone hold hq
  refine ⟨⟨hset, ht.graph.of_erase h.names hp hi hnext hdot hleaf hgone hold, ?_⟩, ?_⟩
  · intro q l hq hw hqscar e he
    rw [hwalk q hq] at hw
    split_ifs at hw with hqp
    obtain ⟨hqp, hqscar⟩ := not_or.mp (mt Finset.mem_insert.mpr hqscar)
    have hli : l ≠ i := by
      rintro rfl
      exact hqp (ht.graph.walk_inj hq (t.names.dotFree p hp) hw hi)
    rw [hremoved.other l (ht.nav.closed.walk ht.nav.root hw) hli] at he
    exact h.whole q l hq hw hqscar e he
  · intro q hq hq'
    have hq' : q ∈ (t.names.erase p c).dirs := hq'
    rw [Walk.Names.mem_erase ((h.leaf_iff hp hi hdot hnext).mpr hempty)] at hq'
    rw [hwalk q (t.names.dotFree q hq), if_neg hq'.1]

/-- `fs_delete` does what it does to the catalog. -/
theorem delete (hpath : Usable path) (name : NameBuf) (type : FileType) :
    ∃ d' S', fsDelete d path type name = .ok ((t.delete path type).1, d') ∧
      (t.delete path type).2.Depicts d' S' ∧ t.Keeps (t.delete path type).2 d d' := by
  have ht := h.settled.tree
  unfold Catalog.delete
  cases hq : t.place path with
  | none =>
    refine ⟨d, S, h.delete_refused ?_ hpath name, h, .refl t d⟩
    rw [hq]
    exact fun _ _ hq => absurd hq (by simp)
  | some q =>
    obtain ⟨p, c⟩ := q
    dsimp only
    by_cases hleaf : t.Leaf type p c
    · rw [if_pos hleaf]
      obtain ⟨htype, hdot, hmem', hnone⟩ := hleaf
      obtain ⟨name', hparent, hkey⟩ := h.lookupParent hpath name
      obtain ⟨hlegal, rfl, hc, hmem⟩ := hkey p c hq
      obtain ⟨i, hi⟩ := Walk.Names.walk_of_mem h.names hmem
      obtain ⟨j, hj⟩ := Walk.Names.walk_of_mem h.names hmem'
      rw [Walk.walk_concat, hi, Option.bind_some] at hj
      rw [hq, Option.bind_some, hi, Option.map_some] at hparent
      have hS := ht.nav.closed.walk ht.nav.root hi
      have hroot : path.bytes ≠ [slash] := by
        intro hroot
        apply hlegal.nonempty
        rw [hroot]
        decide
      have hdel : Deletes d path type name := by
        rw [ht.deletes_iff hS hroot (by tauto) hparent]
        exact ⟨j, hj, (h.leaf_iff hmem hi hdot hj).mp hnone, hdot⟩
      -- The removed slot is the one that the lookup found: slots with this name are valid.
      obtain ⟨i', name'', j', k, x, d', hparent', hi', hidir, hnext, hj', -, hempty, -, hx, hxv, hxk,
        hrun, hremoved⟩ := fsDelete_deletes ht hdel (by
          intro i name' hparent' hi hdir e he hkey
          by_contra hv
          obtain ⟨-, rfl⟩ := Exec.ok_unique hparent hparent'
          rw [h.settled.blank i hi hdir e he (by simpa using hv)] at hkey
          exact hc hkey.symm)
      obtain ⟨hii, rfl⟩ := Exec.ok_unique hparent hparent'
      obtain rfl := ht.nav.wf.inode_inj hS hi' (Option.some.inj hii)
      obtain rfl := Option.some.inj (hj.symm.trans hnext)
      have heffect : Effect d S t.inodes (.delete path type name) d' :=
        .removed i name' j k x hdel hparent hi' hidir hnext hj' hempty hdot hx hxv hxk hremoved
      obtain ⟨S', n', hset, -⟩ := heffect.settled h.settled
      obtain rfl := ht.count_eq hset.tree hremoved.inodeBit
      exact ⟨d', S', hrun, h.removed hmem hi hdot hj hset hempty hx hxv hxk hremoved⟩
    · rw [if_neg hleaf]
      refine ⟨d, S, h.delete_refused ?_ hpath name, h, .refl t d⟩
      intro p' c' hq'
      obtain ⟨rfl, rfl⟩ := Prod.mk.inj (Option.some.inj (hq.symm.trans hq'))
      exact hleaf

omit h in
theorem step {call : Call} (h : t.Depicts d S) (hpath : Usable call.path) (hsound : t.Sound call) :
    ∃ d' S', call.exec d = .ok ((t.exec call).1, d') ∧ (t.exec call).2.Depicts d' S' ∧
      t.Keeps (t.exec call).2 d d' := by
  cases call with
  | create path type name stack => exact h.create hpath name stack hsound
  | delete path type name => exact h.delete hpath name type

end Catalog.Depicts

namespace Catalog

variable {call : Call} {calls : List Call} {p q : List (List UInt8)} {c : List UInt8}

/-- `c` was removed from `p`, and has not come back. -/
def Gone (t : Catalog) (p : List (List UInt8)) (c : List UInt8) : Prop :=
  p ∈ t.scarred ∧ p ++ [c] ∉ t.names.dirs

/-- A call makes a directory, or removes one, or leaves them alone. -/
theorem exec_cases (t : Catalog) (call : Call) :
    ((t.exec call).2.names = t.names ∧ (t.exec call).2.scarred = t.scarred) ∨
    (∃ p c, (t.Sound call → p ∉ t.scarred) ∧ (t.exec call).2.names = t.names.insert p c ∧
      (t.exec call).2.scarred = t.scarred) ∨
    ∃ p c, (∀ r ∈ t.names.dirs, r ≠ [] → r.dropLast ≠ p ++ [c]) ∧
      (t.exec call).2.names = t.names.erase p c ∧ (t.exec call).2.scarred = insert p t.scarred := by
  cases call with
  | create path type name stack =>
    show ((t.create path type).2.names = _ ∧ (t.create path type).2.scarred = _) ∨ (∃ p c, _ ∧
      (t.create path type).2.names = _ ∧ (t.create path type).2.scarred = _) ∨ ∃ p c, _ ∧
      (t.create path type).2.names = _ ∧ (t.create path type).2.scarred = _
    unfold create
    cases hq : t.place path with
    | none => exact .inl ⟨rfl, rfl⟩
    | some q =>
      obtain ⟨p, c⟩ := q
      dsimp only
      by_cases hadmits : t.Admits type p c
      · rw [if_pos hadmits]
        by_cases htype : type = .directoryT
        · refine .inr (.inl ⟨p, c, fun hsound => hsound (p, c) hq htype hadmits, if_pos htype, rfl⟩)
        · exact .inl ⟨if_neg htype, rfl⟩
      · rw [if_neg hadmits]
        exact .inl ⟨rfl, rfl⟩
  | delete path type name =>
    show ((t.delete path type).2.names = _ ∧ (t.delete path type).2.scarred = _) ∨ (∃ p c, _ ∧
      (t.delete path type).2.names = _ ∧ (t.delete path type).2.scarred = _) ∨ ∃ p c, _ ∧
      (t.delete path type).2.names = _ ∧ (t.delete path type).2.scarred = _
    unfold delete
    cases t.place path with
    | none => exact .inl ⟨rfl, rfl⟩
    | some q =>
      obtain ⟨p, c⟩ := q
      dsimp only
      by_cases hleaf : t.Leaf type p c
      · rw [if_pos hleaf]
        exact .inr (.inr ⟨p, c, hleaf.2.2.2, rfl, rfl⟩)
      · rw [if_neg hleaf]
        exact .inl ⟨rfl, rfl⟩

theorem Gone.exec (h : t.Gone p c) (hsound : t.Sound call) : (t.exec call).2.Gone p c := by
  unfold Gone
  rcases t.exec_cases call with ⟨hnames, hscarred⟩ | ⟨p', c', hfresh, hnames, hscarred⟩ |
    ⟨p', c', -, hnames, hscarred⟩
  · rwa [hnames, hscarred]
  · rw [hnames, hscarred]
    refine ⟨h.1, fun hmem => ?_⟩
    rcases Walk.Names.eq_or_mem_of_insert hmem with heq | hmem
    · -- nothing is made where something was removed
      apply hfresh hsound
      rw [← (List.append_inj' heq rfl).1]
      exact h.1
    · exact h.2 hmem
  · rw [hnames, hscarred]
    exact ⟨Finset.mem_insert_of_mem h.1, fun hmem => h.2 (Walk.Names.mem_of_erase hmem)⟩

theorem Gone.execs (h : t.Gone p c) (hsound : t.SoundFor calls) :
    (t.execs calls).2.Gone p c := by
  induction calls generalizing t with
  | nil => exact h
  | cons call calls ih => exact ih (h.exec hsound.1) hsound.2

theorem gone_of_notMem (hp : p ∈ t.names.dirs) (hno : p ∉ (t.exec call).2.names.dirs) :
    ∃ q c, p = q ++ [c] ∧ (t.exec call).2.Gone q c := by
  rcases t.exec_cases call with ⟨hnames, -⟩ | ⟨q, c, -, hnames, -⟩ | ⟨q, c, hleaf, hnames, hscarred⟩
  · rw [hnames] at hno
    exact absurd hp hno
  · rw [hnames] at hno
    exact absurd (Walk.Names.mem_insert_of_mem hp) hno
  · rw [hnames, Walk.Names.mem_erase hleaf] at hno
    obtain rfl : p = q ++ [c] := by
      by_contra hne
      exact hno ⟨hne, hp⟩
    refine ⟨q, c, rfl, ?_⟩
    unfold Gone
    rw [hnames, hscarred, Walk.Names.mem_erase hleaf]
    exact ⟨Finset.mem_insert_self _ _, fun hmem => hmem.1 rfl⟩

/-- What is there in the end was there all the time since it was there first. -/
theorem mem_exec_of_mem (hp : p ∈ t.names.dirs) (hsound : (t.exec call).2.SoundFor calls)
    (hend : p ∈ ((t.exec call).2.execs calls).2.names.dirs) : p ∈ (t.exec call).2.names.dirs := by
  by_contra hno
  obtain ⟨q, c, rfl, hgone⟩ := gone_of_notMem hp hno
  exact (hgone.execs hsound).2 hend

theorem SoundFor.initial {done : List Call} (h : t.SoundFor calls) (hdone : done <+: calls) :
    t.SoundFor done := by
  induction done generalizing t calls with
  | nil => trivial
  | cons call done ih =>
    obtain ⟨rest, rfl⟩ := hdone
    exact ⟨h.1, ih h.2 (List.prefix_append done rest)⟩

end Catalog

/-- The disk looks like the catalog, with these inodes for the directories. -/
def Catalog.DepictsBy (t : Catalog) (number : List (List UInt8) → ℕ) (d : Disk) : Prop :=
  ∃ S, t.Depicts d S ∧ ∀ p ∈ t.names.dirs, Walk.walk d.next 0 p = some (number p)

namespace Catalog.Depicts

theorem walk_getD (h : t.Depicts d S) {p : List (List UInt8)} (hp : p ∈ t.names.dirs) :
    Walk.walk d.next 0 p = some ((Walk.walk d.next 0 p).getD 0) := by
  obtain ⟨i, hi⟩ := Walk.Names.walk_of_mem h.names hp
  rw [hi, Option.getD_some]

/-- One numbering of the directories is good for the whole run. -/
theorem execs {calls : List Call} (h : t.Depicts d S) (hpaths : ∀ call ∈ calls, Usable call.path)
    (hsound : t.SoundFor calls) : ∃ number, t.DepictsBy number d ∧ ∀ done, done <+: calls →
      ∃ d', Call.execs d done = .ok ((t.execs done).1, d') ∧
        (t.execs done).2.DepictsBy number d' := by
  induction calls generalizing t d S with
  | nil =>
    have hself : t.DepictsBy (fun p => (Walk.walk d.next 0 p).getD 0) d :=
      ⟨S, h, fun p hp => h.walk_getD hp⟩
    refine ⟨_, hself, fun done hdone => ?_⟩
    rw [List.prefix_nil.mp hdone]
    exact ⟨d, rfl, hself⟩
  | cons call calls ih =>
    obtain ⟨hpath, hpaths⟩ := List.forall_mem_cons.mp hpaths
    obtain ⟨d₁, S₁, hstep, h₁, hkeeps⟩ := h.step hpath hsound.1
    obtain ⟨number, ⟨_, _, hnumber⟩, hrest⟩ := ih h₁ hpaths hsound.2
    -- a directory that the first call removes has no number in the rest of the run
    let number' := fun p => if p ∈ t.names.dirs then (Walk.walk d.next 0 p).getD 0 else number p
    have hpos : ∀ p ∈ t.names.dirs, number' p = (Walk.walk d.next 0 p).getD 0 :=
      fun p hp => if_pos hp
    have hself : t.DepictsBy number' d := ⟨S, h, fun p hp => by rw [hpos p hp, h.walk_getD hp]; rfl⟩
    refine ⟨number', hself, fun done hdone => ?_⟩
    cases done with
    | nil => exact ⟨d, rfl, hself⟩
    | cons call' done =>
      obtain ⟨rfl, hmore⟩ := List.cons_prefix_cons.mp hdone
      obtain ⟨d', hrun, S', h', hwalk⟩ := hrest done hmore
      refine ⟨d', ?_, S', h', fun p hp => ?_⟩
      · simp only [Call.execs, hstep, hrun, bind, Except.bind]
        rfl
      · show Walk.walk d'.next 0 p = some (number' p)
        rw [hwalk p hp]
        by_cases hold : p ∈ t.names.dirs
        · have hmem := mem_exec_of_mem hold (hsound.2.initial hmore) hp
          rw [hpos p hold, ← hkeeps p hold hmem, hnumber p hmem, Option.getD_some]
        · exact congrArg some (if_neg hold).symm

end Catalog.Depicts

/-- From `fs_init` on every sequence of calls that makes no directory where an entry was removed
returns what it returns on the set of paths.  At any time lookups find the paths of the set, and
each directory has an inode of its own that it keeps. -/
theorem catalog_refines {calls : List Call} (hboot : Booted d₀)
    (hpaths : ∀ call ∈ calls, Usable call.path) (hsound : Catalog.init.SoundFor calls) :
    ∃ number : List (List UInt8) → ℕ, ∀ done, done <+: calls → ∃ d,
      Call.execs d₀ done = .ok ((Catalog.init.execs done).1, d) ∧
      Set.InjOn number (Catalog.init.execs done).2.names.dirs ∧
      (∀ p ∈ (Catalog.init.execs done).2.names.dirs,
        (d.inode (number p)).inum.toInt = number p ∧ (d.inode (number p)).type = .directoryT) ∧
      ∀ path, Short path → ∀ name, pathLookup d path name =
        .ok (((Catalog.init.execs done).2.find path).map fun p => d.inode (number p)) := by
  obtain ⟨number, -, hrun⟩ := (Catalog.Depicts.init hboot).execs hpaths hsound
  refine ⟨number, fun done hdone => ?_⟩
  obtain ⟨d, hexecs, S, h, hnumber⟩ := hrun done hdone
  have ht := h.settled.tree
  have hfree := (Catalog.init.execs done).2.names.dotFree
  refine ⟨d, hexecs, ?_, ?_, ?_⟩
  · intro p hp q hq heq
    have hwalk := hnumber q hq
    rw [← heq] at hwalk
    exact ht.graph.walk_inj (hfree p hp) (hfree q hq) (hnumber p hp) hwalk
  · intro p hp
    have hwalk := hnumber p hp
    exact ⟨ht.nav.wf.inum _ (ht.nav.closed.walk ht.nav.root hwalk), ht.graph.walk_dir hwalk⟩
  · intro path hpath name
    rw [h.lookup hpath name]
    cases hp : (Catalog.init.execs done).2.find path with
    | none => rfl
    | some p => rw [Option.bind_some, hnumber p (Catalog.mem_of_find hp), Option.map_some, Option.map_some]

def callsA : List Call := [mkdirA, mkdirA, rmdirA]

theorem usable_callsA : ∀ call ∈ callsA, Usable call.path := by
  simp [callsA, mkdirA, rmdirA, Call.path, Usable, legal_pathA]

theorem catalog_refines_first : ∃ d₀ d, Booted d₀ ∧
    Call.execs d₀ callsA = .ok ([0, -1, -1], d) := by
  obtain ⟨d₀, hboot⟩ := exists_booted
  obtain ⟨number, hall⟩ := catalog_refines hboot usable_callsA (by decide)
  obtain ⟨d, hrun, -⟩ := hall callsA (List.prefix_refl _)
  have hcodes : (Catalog.init.execs callsA).1 = [0, -1, -1] := by decide
  rw [hcodes] at hrun
  exact ⟨d₀, d, hboot, hrun⟩

namespace Catalog

theorem create_inodes (t : Catalog) (path : CString) (type : FileType) :
    (t.create path type).1 = 0 ∧ t.inodes < 80 ∧ (t.create path type).2.inodes = t.inodes + 1 ∨
      (t.create path type).1 = -1 ∧ (t.create path type).2.inodes = t.inodes := by
  unfold create
  cases t.place path with
  | none => exact .inr ⟨rfl, rfl⟩
  | some q =>
    obtain ⟨p, c⟩ := q
    dsimp only
    by_cases hadmits : t.Admits type p c
    · rw [if_pos hadmits]
      exact .inl ⟨rfl, hadmits.2.2, rfl⟩
    · rw [if_neg hadmits]
      exact .inr ⟨rfl, rfl⟩

theorem delete_inodes (t : Catalog) (path : CString) (type : FileType) :
    (t.delete path type).1 = -1 ∧ (t.delete path type).2.inodes = t.inodes := by
  unfold delete
  cases t.place path with
  | none => exact ⟨rfl, rfl⟩
  | some q =>
    obtain ⟨p, c⟩ := q
    dsimp only
    by_cases hleaf : t.Leaf type p c
    · rw [if_pos hleaf]
      exact ⟨rfl, rfl⟩
    · rw [if_neg hleaf]
      exact ⟨rfl, rfl⟩

/-- Every call that returns `0` takes an inode for good. -/
theorem execs_inodes (t : Catalog) (calls : List Call) (ht : t.inodes ≤ 80) :
    t.inodes + (t.execs calls).1.count 0 ≤ 80 ∧
      ∀ (k : ℕ) path type name, calls[k]? = some (Call.delete path type name) →
        (t.execs calls).1[k]? = some (-1) := by
  induction calls generalizing t with
  | nil => exact ⟨ht, fun _ _ _ _ hk => absurd hk (by simp)⟩
  | cons call calls ih =>
    have hstep : (t.exec call).1 = 0 ∧ t.inodes < 80 ∧ (t.exec call).2.inodes = t.inodes + 1 ∨
        (t.exec call).1 = -1 ∧ (t.exec call).2.inodes = t.inodes := by
      cases call with
      | create path type name stack => exact t.create_inodes path type
      | delete path type name => exact .inr (t.delete_inodes path type)
    have hle : (t.exec call).2.inodes ≤ 80 := by omega
    obtain ⟨hcount, hdelete⟩ := ih (t.exec call).2 hle
    refine ⟨?_, ?_⟩
    · rw [execs, List.count_cons]
      rcases hstep with ⟨hcode, hlt, hinodes⟩ | ⟨hcode, hinodes⟩
      · simp only [hcode, beq_self_eq_true, ↓reduceIte]
        omega
      · simp only [hcode, Int.reduceNeg, beq_iff_eq, reduceCtorEq, ↓reduceIte]
        omega
    · intro k path type name hk
      cases k with
      | zero =>
        rw [List.getElem?_cons_zero, Option.some.injEq] at hk
        rw [execs, List.getElem?_cons_zero, hk]
        exact congrArg some (t.delete_inodes path type).1
      | succ k => exact hdelete k path type name hk

end Catalog

/-- In such runs at most 79 calls return `0`, and no `fs_delete` does. -/
theorem successes_bounded {calls : List Call} {rs : List ℤ} (hboot : Booted d₀)
    (hpaths : ∀ call ∈ calls, Usable call.path) (hsound : Catalog.init.SoundFor calls)
    (hrun : Call.execs d₀ calls = .ok (rs, d)) :
    rs.count 0 ≤ 79 ∧ ∀ (k : ℕ) path type name, calls[k]? = some (Call.delete path type name) →
      rs[k]? = some (-1) := by
  obtain ⟨number, -, hall⟩ := (Catalog.Depicts.init hboot).execs hpaths hsound
  obtain ⟨d', hrun', -⟩ := hall calls (List.prefix_refl calls)
  obtain ⟨rfl, -⟩ := Exec.ok_unique hrun hrun'
  obtain ⟨hcount, hdelete⟩ := Catalog.init.execs_inodes calls (by decide)
  have hinit : Catalog.init.inodes = 1 := rfl
  exact ⟨by omega, hdelete⟩

theorem successes_bounded_first : ∃ d₀ d, Booted d₀ ∧ Call.execs d₀ callsA = .ok ([0, -1, -1], d) ∧
    ([0, -1, -1] : List ℤ).count 0 ≤ 79 := by
  obtain ⟨d₀, hboot⟩ := exists_booted
  obtain ⟨number, -, hall⟩ := (Catalog.Depicts.init hboot).execs usable_callsA (by decide)
  obtain ⟨d, hrun, -⟩ := hall callsA (List.prefix_refl _)
  have hcodes : (Catalog.init.execs callsA).1 = [0, -1, -1] := by decide
  rw [hcodes] at hrun
  exact ⟨d₀, d, hboot, hrun, (successes_bounded hboot usable_callsA (by decide) hrun).1⟩

end PicoShell.Fs
