import Mathlib.Data.Nat.Bitwise
import Mathlib.Tactic.IntervalCases
import Mathlib.Tactic.Positivity
import PicoShell.Fs.Disk

/-! `bitmap.c`.  Bit `pos` of a bitmap block is the bit `0x80 >> (pos % 8)` of byte
`pos / 8`; a set bit marks a slot that is taken. -/

namespace PicoShell.Fs

/-- `0x80 >> j`. -/
def mask (j : ℕ) : UInt8 := 0x80 >>> UInt8.ofNat j

def Block.bit (b : Block) (pos : ℕ) : Bool := b.get (pos / 8) &&& mask (pos % 8) != 0

/-- The scan of `bitmap_find_free` over the positions `i * 8 + j`. -/
def scanFree (bitmap : Block) (limit : ℕ) : List ℕ → Option ℕ
  | [] => none
  | pos :: ps =>
    if pos ≥ limit then none
    else if bitmap.bit pos then scanFree bitmap limit ps
    else some pos

def bitmapFindFree (disk : Disk) (bnum : ℤ) (limit : ℕ) : Option ℕ :=
  match blockRead disk bnum with
  | none => none
  | some bitmap => scanFree bitmap limit (List.range ((numDataBlocks + 7) / 8 * 8))

/-- The byte and bit index of `offset`, or the fault of using them unchecked. -/
def bitIndex (offset : ℤ) : Exec (ℕ × ℕ) :=
  let byteIx := offset.tdiv 8
  let bitIx := offset.tmod 8
  if byteIx < 0 ∨ byteIx ≥ blockSize then .error .index
  else if bitIx < 0 then .error .shift
  else .ok (byteIx.toNat, bitIx.toNat)

def Block.setByte (b : Block) (i : ℕ) (v : UInt8) : Block := fun k => if k.val = i then v else b k

def bitmapAlloc (disk : Disk) (bnum offset : ℤ) : Exec (Option Disk) :=
  match blockRead disk bnum with
  | none => .ok none
  | some bitmap => do
    let (byteIx, bitIx) ← bitIndex offset
    if bitmap.get byteIx &&& mask bitIx != 0 then
      return none
    else
      return blockWrite disk (bitmap.setByte byteIx (bitmap.get byteIx ||| mask bitIx)) bnum

def bitmapFree (disk : Disk) (bnum offset : ℤ) : Exec (Option Disk) :=
  match blockRead disk bnum with
  | none => .ok none
  | some bitmap => do
    let (byteIx, bitIx) ← bitIndex offset
    if bitmap.get byteIx &&& mask bitIx == 0 then
      return none
    else
      return blockWrite disk (bitmap.setByte byteIx (bitmap.get byteIx &&& ~~~mask bitIx)) bnum

theorem mask_toNat {j : ℕ} (h : j < 8) : (mask j).toNat = 2 ^ (7 - j) := by
  interval_cases j <;> rfl

theorem and_mask_ne_zero (x : UInt8) {j : ℕ} (h : j < 8) :
    (x &&& mask j != 0) = x.toNat.testBit (7 - j) := by
  have hand : (x &&& mask j).toNat = 2 ^ (7 - j) * (x.toNat.testBit (7 - j)).toNat := by
    rw [UInt8.toNat_and, mask_toNat h, Nat.and_two_pow, Nat.mul_comm]
  cases hb : x.toNat.testBit (7 - j) with
  | false =>
    have h0 : x &&& mask j = 0 := UInt8.toNat_inj.mp (by simpa [hb] using hand)
    simp [h0]
  | true =>
    have h1 : x &&& mask j ≠ 0 := by
      intro h0
      have hpos : 0 < 2 ^ (7 - j) := by positivity
      rw [h0, hb] at hand
      simp at hand
      omega
    simpa using h1

theorem not_mask_testBit {j k : ℕ} (hj : j < 8) (hk : k < 8) :
    (~~~mask j).toNat.testBit (7 - k) = !decide (k = j) := by
  interval_cases j <;> interval_cases k <;> rfl

theorem or_mask_bit (x : UInt8) {j k : ℕ} (hj : j < 8) (hk : k < 8) :
    ((x ||| mask j) &&& mask k != 0) = (decide (k = j) || (x &&& mask k != 0)) := by
  rw [and_mask_ne_zero _ hk, and_mask_ne_zero _ hk, UInt8.toNat_or, Nat.testBit_or, mask_toNat hj,
    Nat.testBit_two_pow, Bool.or_comm]
  congr 1
  simp only [decide_eq_decide]
  omega

theorem and_not_mask_bit (x : UInt8) {j k : ℕ} (hj : j < 8) (hk : k < 8) :
    ((x &&& ~~~mask j) &&& mask k != 0) = (!decide (k = j) && (x &&& mask k != 0)) := by
  rw [and_mask_ne_zero _ hk, and_mask_ne_zero _ hk, UInt8.toNat_and, Nat.testBit_and,
    not_mask_testBit hj hk, Bool.and_comm]

theorem bitIndex_of_lt {pos : ℕ} (h : pos < 8192) : bitIndex pos = .ok (pos / 8, pos % 8) := by
  have hd : ((pos : ℤ)).tdiv 8 = ((pos / 8 : ℕ) : ℤ) := by
    rw [Int.tdiv_eq_ediv_of_nonneg (by omega)]; omega
  have hm : ((pos : ℤ)).tmod 8 = ((pos % 8 : ℕ) : ℤ) := by
    rw [Int.tmod_eq_emod_of_nonneg (by omega)]; omega
  simp only [bitIndex, hd, hm, Int.toNat_natCast]
  rw [if_neg (by push_cast; omega), if_neg (by omega)]

/-- A position in front of the bitmap gives a negative index or shift, one behind it an index past
the block. -/
theorem bitIndex_out_of_range {pos : ℤ} (h : pos < 0 ∨ 8192 ≤ pos) :
    bitIndex pos = .error (if -8 < pos ∧ pos < 0 then .shift else .index) := by
  simp only [bitIndex, blockSize, Nat.cast_ofNat]
  rcases h with hneg | hbig
  · have hdiv : pos.tdiv 8 = -((-pos) / 8) := by
      rw [← Int.tdiv_eq_ediv_of_nonneg (by omega), Int.neg_tdiv, neg_neg]
    have hmod : pos.tmod 8 = -((-pos) % 8) := by
      rw [← Int.tmod_eq_emod_of_nonneg (by omega), Int.neg_tmod, neg_neg]
    rw [hdiv, hmod]
    by_cases hsmall : -8 < pos
    · rw [if_neg (by omega), if_pos (by omega), if_pos ⟨hsmall, hneg⟩]
    · rw [if_pos (by omega), if_neg (by omega)]
  · rw [Int.tdiv_eq_ediv_of_nonneg (by omega), if_pos (by omega), if_neg (by omega)]

theorem Block.get_setByte (b : Block) {i k : ℕ} (v : UInt8) (hi : i < 1024) :
    (b.setByte i v).get k = if k = i then v else b.get k := by
  by_cases hk : k < 1024
  · rw [Bytes.get_of_lt _ hk, Bytes.get_of_lt _ hk]
    rfl
  · rw [if_neg (by omega)]
    simp [Bytes.get, hk]

def Block.setBit (b : Block) (pos : ℕ) : Block :=
  b.setByte (pos / 8) (b.get (pos / 8) ||| mask (pos % 8))

def Block.clearBit (b : Block) (pos : ℕ) : Block :=
  b.setByte (pos / 8) (b.get (pos / 8) &&& ~~~mask (pos % 8))

theorem Block.bit_setBit (b : Block) {pos : ℕ} (q : ℕ) (h : pos < 8192) :
    (b.setBit pos).bit q = (decide (q = pos) || b.bit q) := by
  unfold Block.bit Block.setBit
  rw [Block.get_setByte _ _ (by omega)]
  by_cases hb : q / 8 = pos / 8
  · rw [if_pos hb, ← hb, or_mask_bit _ (by omega) (by omega)]
    congr 1
    simp only [decide_eq_decide]
    omega
  · have hne : q ≠ pos := fun he => hb (by rw [he])
    simp [hb, hne]

theorem Block.bit_clearBit (b : Block) {pos : ℕ} (q : ℕ) (h : pos < 8192) :
    (b.clearBit pos).bit q = (!decide (q = pos) && b.bit q) := by
  unfold Block.bit Block.clearBit
  rw [Block.get_setByte _ _ (by omega)]
  by_cases hb : q / 8 = pos / 8
  · rw [if_pos hb, ← hb, and_not_mask_bit _ (by omega) (by omega)]
    congr 2
    simp only [decide_eq_decide]
    omega
  · have hne : q ≠ pos := fun he => hb (by rw [he])
    simp [hb, hne]

theorem bitmapAlloc_of_lt (disk : Disk) {k pos : ℕ} (hk : k < 128) (h : pos < 8192) :
    bitmapAlloc disk k pos = .ok (if (disk.block k).bit pos then none
      else some (disk.splice (1024 * k) ((disk.block k).setBit pos))) := by
  simp only [bitmapAlloc, blockRead_of_lt disk hk, bitIndex_of_lt h, blockWrite_of_lt disk _ hk,
    Block.bit, Block.setBit]
  split_ifs with hb <;> simp_all [bind, Except.bind, pure, Except.pure]

theorem bitmapFree_of_lt (disk : Disk) {k pos : ℕ} (hk : k < 128) (h : pos < 8192) :
    bitmapFree disk k pos = .ok (if (disk.block k).bit pos then
      some (disk.splice (1024 * k) ((disk.block k).clearBit pos)) else none) := by
  simp only [bitmapFree, blockRead_of_lt disk hk, bitIndex_of_lt h, blockWrite_of_lt disk _ hk,
    Block.bit, Block.clearBit]
  split_ifs with hb <;> simp_all [bind, Except.bind, pure, Except.pure]

theorem bitmapFree_out_of_range (disk : Disk) {k : ℕ} {pos : ℤ} (hk : k < 128)
    (h : pos < 0 ∨ 8192 ≤ pos) :
    bitmapFree disk k pos = .error (if -8 < pos ∧ pos < 0 then .shift else .index) := by
  simp only [bitmapFree, blockRead_of_lt disk hk, bitIndex_out_of_range h]
  rfl

/-- The scan from `a` on returns the least free position below the limit. -/
theorem scanFree_range' (b : Block) (limit a n : ℕ) (h : limit ≤ a + n) :
    (scanFree b limit (List.range' a n) = none ∧ ∀ q, a ≤ q → q < limit → b.bit q = true) ∨
    ∃ p, scanFree b limit (List.range' a n) = some p ∧ a ≤ p ∧ p < limit ∧ b.bit p = false ∧
      ∀ q, a ≤ q → q < p → b.bit q = true := by
  induction n generalizing a with
  | zero => exact .inl ⟨rfl, fun q h1 h2 => by omega⟩
  | succ n ih =>
    rw [List.range'_succ]
    unfold scanFree
    by_cases ha : a ≥ limit
    · rw [if_pos ha]
      exact .inl ⟨rfl, fun q h1 h2 => by omega⟩
    rw [if_neg ha]
    cases hb : b.bit a with
    | false => exact .inr ⟨a, by simp, le_rfl, by omega, hb, fun q h1 h2 => by omega⟩
    | true =>
      have hstep : ∀ q, (a + 1 ≤ q → b.bit q = true) → a ≤ q → b.bit q = true := by
        intro q hq h1
        rcases Nat.eq_or_lt_of_le h1 with rfl | h1
        · exact hb
        · exact hq h1
      rcases ih (a + 1) (by omega) with ⟨hn, hall⟩ | ⟨p, hp, h1, h2, h3, h4⟩
      · exact .inl ⟨by simpa using hn, fun q h1 h2 => hstep q (fun h => hall q h h2) h1⟩
      · exact .inr ⟨p, by simpa using hp, by omega, h2, h3,
          fun q h1 h2 => hstep q (fun h => h4 q h h2) h1⟩

theorem bitmapFindFree_of_lt (disk : Disk) {k : ℕ} (limit : ℕ) (hk : k < 128) :
    bitmapFindFree disk k limit = scanFree (disk.block k) limit (List.range' 0 120) := by
  rw [bitmapFindFree, blockRead_of_lt disk hk, List.range_eq_range']
  rfl

/-- `bitmap_find_free` fails exactly when every slot below the limit is taken. -/
theorem bitmapFindFree_eq_none (disk : Disk) {k limit : ℕ} (hk : k < 128) (hl : limit ≤ 120) :
    bitmapFindFree disk k limit = none ↔ ∀ q < limit, (disk.block k).bit q = true := by
  rw [bitmapFindFree_of_lt disk limit hk]
  rcases scanFree_range' (disk.block k) limit 0 120 (by omega) with ⟨hn, hall⟩ | ⟨p, hp, _, h2, h3, _⟩
  · exact iff_of_true hn fun q hq => hall q (by omega) hq
  · refine iff_of_false ?_ fun hall => ?_
    · rw [hp]; simp
    · rw [hall p h2] at h3
      cases h3

theorem bitmapFindFree_eq_some (disk : Disk) {k limit p : ℕ} (hk : k < 128) (hl : limit ≤ 120)
    (h : bitmapFindFree disk k limit = some p) :
    p < limit ∧ (disk.block k).bit p = false ∧ ∀ q < p, (disk.block k).bit q = true := by
  rw [bitmapFindFree_of_lt disk limit hk] at h
  rcases scanFree_range' (disk.block k) limit 0 120 (by omega) with ⟨hn, _⟩ | ⟨p', hp, _, h2, h3, h4⟩
  · rw [hn] at h
    cases h
  · rw [hp] at h
    cases h
    exact ⟨h2, h3, fun q hq => h4 q (by omega) hq⟩

end PicoShell.Fs
