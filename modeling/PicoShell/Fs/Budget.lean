import Mathlib.Algebra.BigOperators.Intervals
import Mathlib.Algebra.BigOperators.Ring.Finset
import Mathlib.Data.Finset.Card
import PicoShell.Fs.Fs

namespace PicoShell.Fs

open Finset

variable {d d' : Disk} {S : ℕ → Prop} {i n t : ℕ}

def Disk.slots (d : Disk) (i : ℕ) : ℕ := ((d.inode i).len + 63) / 64

/-- The marked blocks all belong to inodes of `S`, and the first `n` inodes hold at most `t`
slots. -/
structure Budget (d : Disk) (S : ℕ → Prop) (n t : ℕ) : Prop where
  lt : ∀ i, S i → i < n
  owned : ∀ b < 120, d.dataBit b = true → ∃ i, S i ∧ ∃ k < 12, (d.inode i).addr k = b
  slots : ∑ i ∈ range n, d.slots i ≤ t

namespace Budget

def places (d : Disk) (n : ℕ) : Finset ((_ : ℕ) × ℕ) :=
  (range n).sigma fun i => range ((d.slots i + 15) / 16)

theorem card_places (h : Budget d S n t) : (places d n).card * 16 ≤ t + 15 * n := by
  have hsum : ∑ i ∈ range n, (d.slots i + 15) / 16 * 16 ≤ ∑ i ∈ range n, (d.slots i + 15) := by
    apply sum_le_sum
    intro i _
    exact Nat.div_mul_le_self _ _
  have hslots := h.slots
  rw [places, card_sigma]
  simp only [card_range]
  rw [sum_mul]
  rw [sum_add_distrib, sum_const, card_range, nsmul_eq_mul, Nat.cast_id] at hsum
  omega

/-- With at most three slots per inode there is a free block. -/
theorem exists_free (h : Budget d S n t) (hwf : WellFormedOn d S) (hn : n ≤ 80) (ht : t ≤ 3 * n) :
    ∃ b < 120, d.dataBit b = false := by
  by_contra hfull
  push Not at hfull
  -- each block number is the address of one of the places
  have hsub : range 120 ⊆ (places d n).image fun q => ((d.inode q.1).addr q.2).toNat := by
    intro b hb
    have hb := mem_range.mp hb
    obtain ⟨i, hi, k, hk, hkb⟩ := h.owned b hb (by simpa using hfull b hb)
    have hin := (hwf.addrs i hi k hk).mp (by omega)
    refine mem_image.mpr ⟨⟨i, k⟩, ?_, by simp [hkb]⟩
    have hi := h.lt i hi
    simp only [places, mem_sigma, mem_range, Disk.slots]
    omega
  have hcard := (card_le_card hsub).trans card_image_le
  rw [card_range] at hcard
  have := h.card_places
  omega

theorem mono {t' : ℕ} (h : Budget d S n t) (ht : t ≤ t') : Budget d S n t' :=
  ⟨h.lt, h.owned, h.slots.trans ht⟩

theorem written {p : ℕ} {s : ℕ → UInt8} (h : Budget d S n t) (hwf : WellFormedOn d S) (hi : S i)
    (hn : n ≤ 80) (hp : p ≤ (d.inode i).len) (hw : Written d d' S i p 64 s) :
    Budget d' S n (t + 1) := by
  refine ⟨h.lt, ?_, ?_⟩
  · intro b hb hbit
    rcases hw.fresh b hbit with hold | ⟨k, hk, hkb⟩
    · obtain ⟨j, hj, k, hk, hkb⟩ := h.owned b hb hold
      refine ⟨j, hj, k, hk, ?_⟩
      by_cases hji : j = i
      · subst hji
        rw [hw.addr k hk (by omega), hkb]
      · rw [hw.inode j (hwf.lt j hj) hji, hkb]
    · exact ⟨i, hi, k, hk, hkb⟩
  · have hle : ∀ j ∈ range n, d'.slots j ≤ d.slots j + if j = i then 1 else 0 := by
      intro j hj
      have hj := mem_range.mp hj
      unfold Disk.slots
      by_cases hji : j = i
      · subst hji
        rw [hw.len, if_pos rfl]
        omega
      · rw [hw.inode j (by omega) hji]
        omega
    have hsum := sum_le_sum hle
    rw [sum_add_distrib, sum_ite_eq' (range n) i, if_pos (mem_range.mpr (h.lt i hi))] at hsum
    have := h.slots
    omega

theorem takeInode {x : Inode} (h : Budget d S n t) (hwf : WellFormedOn d S) (hx : x.Blank)
    (hn : n < 80) : Budget (d.takeInode x n) (fun j => S j ∨ j = n) (n + 1) t := by
  refine ⟨?_, ?_, ?_⟩
  · rintro i (hi | rfl)
    · have := h.lt i hi
      omega
    · omega
  · intro b hb hbit
    rw [Disk.dataBit_takeInode _ _ _ hn] at hbit
    obtain ⟨i, hi, k, hk, hkb⟩ := h.owned b hb hbit
    have hne : i ≠ n := (h.lt i hi).ne
    refine ⟨i, .inl hi, k, hk, ?_⟩
    rw [Disk.inode_takeInode _ _ hn (hwf.lt i hi), if_neg hne, hkb]
  · have hnew : (d.takeInode x n).slots n = 0 := by
      have hblank : ((d.takeInode x n).inode n).Blank := by
        rw [Disk.inode_takeInode _ _ hn hn, if_pos rfl]
        exact ⟨hx.size, hx.addrs⟩
      rw [Disk.slots, hblank.len]
    have hold : ∀ i ∈ range n, (d.takeInode x n).slots i = d.slots i := by
      intro i hi
      have hi := mem_range.mp hi
      rw [Disk.slots, Disk.inode_takeInode _ _ hn (by omega), if_neg hi.ne, Disk.slots]
    rw [sum_range_succ, hnew, sum_congr rfl hold, add_zero]
    exact h.slots

end Budget

end PicoShell.Fs
