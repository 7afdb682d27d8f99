import PicoShell.Fs.Budget
import PicoShell.Lib.DotTree

/-! The invariant of the file system calls, stated on the edges of the directories: the
live inodes form a tree under the root, and nothing else owns a data block. -/

namespace PicoShell.Fs

variable {d d' : Disk} {S : ℕ → Prop} {i j p n : ℕ} {c : List UInt8}

def IsDot (c : List UInt8) : Prop := c = dotName ∨ c = dotDotName

instance (c : List UInt8) : Decidable (IsDot c) := inferInstanceAs (Decidable (_ ∨ _))

/-- The inodes of `S` are a directory tree on a disk with `n` allocated inodes. -/
structure Tree (d : Disk) (S : ℕ → Prop) (n : ℕ) : Prop where
  nav : Navigable d S
  le : n ≤ 80
  bits : ∀ i < 80, d.inodeBit i = true ↔ i < n
  budget : Budget d S n (3 * n)
  slots : ∀ i, S i → d.slots i ≤ n + 1
  rootType : (d.inode 0).type = .directoryT
  names : ∀ i, S i → (d.inode i).type = .directoryT → NamesDistinct (d.entries (d.inode i))
  self : ∀ i, S i → (d.inode i).type = .directoryT → d.next i dotName = some i
  hasUp : ∀ i, S i → (d.inode i).type = .directoryT → ∃ p, d.next i dotDotName = some p
  kind : ∀ i c j, S i → d.next i c = some j → (d.inode j).type = .directoryT
  upRoot : d.next 0 dotDotName = some 0
  up : ∀ i c j, S i → ¬ IsDot c → d.next i c = some j → d.next j dotDotName = some i
  lt : ∀ i c j, S i → ¬ IsDot c → d.next i c = some j → i < j
  inj : ∀ i c c' j, S i → ¬ IsDot c → ¬ IsDot c' → d.next i c = some j → d.next i c' = some j →
    c = c'
  linked : ∀ j, S j → (d.inode j).type = .directoryT → j ≠ 0 →
    ∃ i c, S i ∧ ¬ IsDot c ∧ d.next i c = some j

theorem mem_of_next (h : d.next i c = some j) : (d.inode i).type = .directoryT ∧
    ∃ e ∈ d.entries (d.inode i), e.valid = true ∧ e.key = c ∧ e.inum.toInt.toNat = j := by
  unfold Disk.next at h
  split_ifs at h with hdir
  obtain ⟨e, he, hej⟩ := Option.map_eq_some_iff.mp h
  obtain ⟨hmem, hv, hkey⟩ := findEntry_some he
  exact ⟨hdir, e, hmem, hv, hkey, hej⟩

theorem next_eq_none (hdir : (d.inode i).type = .directoryT) :
    d.next i c = none ↔ ∀ e ∈ d.entries (d.inode i), e.valid = true → e.key ≠ c := by
  rw [Disk.next, if_pos hdir, Option.map_eq_none_iff, findEntry_eq_none]

theorem next_of_mem {e : Dirent} (hdir : (d.inode i).type = .directoryT)
    (hd : NamesDistinct (d.entries (d.inode i))) (he : e ∈ d.entries (d.inode i))
    (hv : e.valid = true) : d.next i e.key = some e.inum.toInt.toNat := by
  rw [Disk.next, if_pos hdir, findEntry_of_mem hd he hv]
  rfl

theorem next_of_empty (hempty : ∀ e ∈ d.entries (d.inode i), e.valid = true → IsDot e.key)
    (hc : ¬ IsDot c) : d.next i c = none := by
  by_contra hsome
  obtain ⟨j, hj⟩ := Option.ne_none_iff_exists'.mp hsome
  obtain ⟨-, e, he, hv, hkey, -⟩ := mem_of_next hj
  exact hc (hkey ▸ hempty e he hv)

/-- The edges of a directory are determined by its slots. -/
theorem next_congr {d' : Disk} (htype : (d'.inode i).type = (d.inode i).type)
    (hentries : d'.entries (d'.inode i) = d.entries (d.inode i)) : d'.next i c = d.next i c := by
  unfold Disk.next
  rw [htype, hentries]

namespace Tree

theorem graph (h : Tree d S n) : Walk.DotTree d.next (fun i => (d.inode i).type = .directoryT) S 0
    dotName dotDotName where
  closed := h.nav.closed
  root_mem := h.nav.root
  root_dir := h.rootType
  source _ _ _ _ hij := (mem_of_next hij).1
  target := h.kind
  self := h.self
  hasUp := h.hasUp
  up_root := h.upRoot
  up_child := h.up
  lt := h.lt
  inj := h.inj
  linked := h.linked

/-- The edges make the tree; the rest is about the slots and the bitmaps. -/
theorem of_graph (hnav : Navigable d S) (hle : n ≤ 80) (hbits : ∀ i < 80, d.inodeBit i = true ↔ i < n)
    (hbudget : Budget d S n (3 * n)) (hslots : ∀ i, S i → d.slots i ≤ n + 1)
    (hnames : ∀ i, S i → (d.inode i).type = .directoryT → NamesDistinct (d.entries (d.inode i)))
    (hgraph : Walk.DotTree d.next (fun i => (d.inode i).type = .directoryT) S 0 dotName dotDotName) :
    Tree d S n :=
  ⟨hnav, hle, hbits, hbudget, hslots, hgraph.root_dir, hnames, hgraph.self, hgraph.hasUp,
    hgraph.target, hgraph.up_root, hgraph.up_child, hgraph.lt, hgraph.inj, hgraph.linked⟩

theorem not_isDot_of_new (h : Tree d S n) (hi : S i) (hdir : (d.inode i).type = .directoryT)
    (hnew : d.next i c = none) : ¬ IsDot c := h.graph.not_dot_of_none hi hdir hnew

end Tree

end PicoShell.Fs
