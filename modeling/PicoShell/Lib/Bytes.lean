import Mathlib.Data.Fin.Basic
import Mathlib.Data.List.TakeWhile
import Mathlib.Data.Nat.Notation
import Mathlib.Tactic.NormNum

/-! Fixed-size byte buffers, the two directions of `memcpy` between a buffer and a
window of another one, and 32-bit little-endian integers inside a buffer. -/

abbrev Bytes (n : ℕ) := Fin n → UInt8

namespace Bytes

variable {n m l : ℕ}

def get (b : Bytes n) (i : ℕ) : UInt8 := if h : i < n then b ⟨i, h⟩ else 0

/-- `memcpy(dst, &b[off], len)`. -/
def slice (b : Bytes n) (off len : ℕ) : Bytes len := fun i => b.get (off + i)

/-- `memcpy(&b[off], src, len)`. -/
def splice (b : Bytes n) (off : ℕ) (src : Bytes m) : Bytes n := fun i =>
  if off ≤ i.val ∧ i.val < off + m then src.get (i.val - off) else b i

/-- The `len` bytes from `off` on, as a list. -/
def window (b : Bytes n) (off len : ℕ) : List UInt8 :=
  (List.range len).map fun i => b.get (off + i)

def zero (n : ℕ) : Bytes n := fun _ => 0

def ofList (n : ℕ) (l : List UInt8) : Bytes n := fun i => l.getD i.val 0

/-- The bytes in front of the first `0`: the C string that starts at the buffer. -/
def cstr (b : Bytes n) : List UInt8 := (List.ofFn b).takeWhile (· ≠ 0)

theorem get_of_lt (b : Bytes n) {i : ℕ} (h : i < n) : b.get i = b ⟨i, h⟩ := dif_pos h

@[simp] theorem get_val (b : Bytes n) (i : Fin n) : b.get i.val = b i := get_of_lt b i.isLt

@[simp] theorem get_zero (n i : ℕ) : (zero n).get i = 0 := by
  simp [get, zero]

@[simp] theorem slice_zero (n off len : ℕ) : (zero n).slice off len = zero len := by
  ext i
  simp [slice, zero]

theorem slice_apply (b : Bytes n) (off len : ℕ) (i : Fin len) :
    b.slice off len i = b.get (off + i) := rfl

@[simp] theorem get_slice (b : Bytes n) {off len i : ℕ} (h : i < len) :
    (b.slice off len).get i = b.get (off + i) := get_of_lt _ h

theorem get_splice (b : Bytes n) {off i : ℕ} (src : Bytes m) (h : i < n) :
    (b.splice off src).get i = if off ≤ i ∧ i < off + m then src.get (i - off) else b.get i := by
  rw [get_of_lt _ h, get_of_lt _ h]
  rfl

theorem get_splice_inside (b : Bytes n) {off i : ℕ} (src : Bytes m) (h : off + m ≤ n)
    (hlo : off ≤ i) (hhi : i < off + m) : (b.splice off src).get i = src.get (i - off) := by
  rw [get_splice b src (by omega), if_pos ⟨hlo, hhi⟩]

theorem get_splice_outside (b : Bytes n) {off i : ℕ} (src : Bytes m)
    (h : i < off ∨ off + m ≤ i) : (b.splice off src).get i = b.get i := by
  by_cases hi : i < n
  · rw [get_splice b src hi, if_neg (by omega)]
  · simp [get, hi]

theorem slice_splice_self (b : Bytes n) {off : ℕ} (src : Bytes m) (h : off + m ≤ n) :
    (b.splice off src).slice off m = src := by
  funext i
  rw [slice_apply, get_splice_inside b src h (by omega) (by omega)]
  simp

theorem slice_splice_disjoint (b : Bytes n) {off off' len : ℕ} (src : Bytes m)
    (h : off' + len ≤ off ∨ off + m ≤ off') :
    (b.splice off src).slice off' len = b.slice off' len := by
  funext i
  exact get_splice_outside b src (by omega)

/-- Read-modify-write of an enclosing window is one write at the absolute offset. -/
theorem splice_window (b : Bytes n) {base off : ℕ} (src : Bytes m) (h : off + m ≤ l) :
    b.splice base ((b.slice base l).splice off src) = b.splice (base + off) src := by
  funext i
  simp only [splice]
  by_cases hw : base ≤ i.val ∧ i.val < base + l
  · rw [if_pos hw, get_splice _ _ (by omega)]
    by_cases hin : base + off ≤ i.val ∧ i.val < base + off + m
    · rw [if_pos (by omega), if_pos hin]
      congr 1
      omega
    · rw [if_neg (by omega), if_neg hin, get_slice _ (by omega),
        show base + (i.val - base) = i.val by omega, get_val]
  · rw [if_neg hw, if_neg (by omega)]

/-- A buffer that starts with a zero-free list and a terminator holds that string. -/
theorem cstr_eq_of_prefix (b : Bytes n) (s : List UInt8) (hs : (0 : UInt8) ∉ s)
    (hlen : s.length < n) (hget : ∀ i (h : i < s.length), b.get i = s[i])
    (hend : b.get s.length = 0) : b.cstr = s := by
  have hsplit : List.ofFn b = s ++ 0 :: (List.ofFn b).drop (s.length + 1) := by
    apply List.ext_getElem?
    intro i
    by_cases hi : i < s.length
    · rw [List.getElem?_append_left hi, List.getElem?_ofFn, List.getElem?_eq_getElem hi,
        dif_pos (by omega), ← hget i hi, get_of_lt _ (by omega)]
    · rw [List.getElem?_append_right (by omega)]
      rcases Nat.eq_or_lt_of_le (Nat.le_of_not_lt hi) with he | he
      · subst he
        rw [List.getElem?_ofFn, dif_pos hlen, Nat.sub_self, List.getElem?_cons_zero, ← hend,
          get_of_lt _ hlen]
      · obtain ⟨k, rfl⟩ : ∃ k, i = s.length + 1 + k := ⟨i - (s.length + 1), by omega⟩
        rw [show s.length + 1 + k - s.length = k + 1 by omega, List.getElem?_cons_succ,
          List.getElem?_drop]
  unfold cstr
  rw [hsplit, List.takeWhile_append_of_pos]
  · simp
  · intro x hx
    simp only [ne_eq, decide_eq_true_eq]
    exact fun h0 => hs (h0 ▸ hx)

/-- The four little-endian bytes of an `int`. -/
def encodeInt (x : Int32) : Bytes 4 := fun i => UInt8.ofNat (x.toUInt32.toNat / 256 ^ i.val)

/-- The `int` stored in four little-endian bytes. -/
def decodeInt (b : Bytes 4) : Int32 :=
  (UInt32.ofNat ((b 0).toNat + 256 * (b 1).toNat + 65536 * (b 2).toNat +
    16777216 * (b 3).toNat)).toInt32

theorem decodeInt_encodeInt (x : Int32) : decodeInt (encodeInt x) = x := by
  have hx : x.toUInt32.toNat < 2 ^ 32 := x.toUInt32.toNat_lt
  have hsum : ((encodeInt x) 0).toNat + 256 * ((encodeInt x) 1).toNat +
      65536 * ((encodeInt x) 2).toNat + 16777216 * ((encodeInt x) 3).toNat =
      x.toUInt32.toNat := by
    simp only [encodeInt, UInt8.toNat_ofNat']
    norm_num
    omega
  unfold decodeInt
  rw [hsum, UInt32.ofNat_toNat]
  exact x.toInt32_toUInt32

end Bytes
