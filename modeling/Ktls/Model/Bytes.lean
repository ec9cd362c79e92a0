import Mathlib.Data.List.Basic
import Mathlib.Data.Nat.Bitwise
import Mathlib.Tactic.NormNum
import Mathlib.Tactic.Linarith

/-! Bytes in memory, as the C code handles them. -/

namespace Ktls

abbrev Bytes := List UInt8

/-- The bytes of an ASCII literal, without its NUL. -/
def ascii (s : String) : Bytes := s.toList.map fun c => UInt8.ofNat c.toNat

/-- `memcpy(dst + off, src, n)` with `n` the length of `src`. -/
def memcpy (dst : Bytes) (off : ℕ) (src : Bytes) : Bytes :=
  dst.take off ++ src ++ dst.drop (off + src.length)

/-- `(int) n` of a `size_t`. -/
def cInt (n : ℕ) : ℤ := Int.bmod n (2 ^ 32)

/-- The 8 bytes of `rec_seq`: `rec_seq[7 - i] = (unsigned char) (seq >> (8 * i))`. -/
def be64 (seq : ℕ) : Bytes := (List.range 8).map fun i => UInt8.ofNat (seq >>> (8 * (7 - i)))

/-- A big-endian number, read back. -/
def readBE (b : Bytes) : ℕ := b.foldl (fun acc c => acc * 256 + c.toNat) 0

theorem length_memcpy {dst src : Bytes} {off : ℕ} (h : off + src.length ≤ dst.length) :
    (memcpy dst off src).length = dst.length := by
  simp only [memcpy, List.length_append, List.length_take, List.length_drop]
  omega

theorem take_memcpy {dst src : Bytes} {off : ℕ} (h : off ≤ dst.length) :
    (memcpy dst off src).take (off + src.length) = dst.take off ++ src := by
  have hl : (dst.take off ++ src).length = off + src.length := by
    rw [List.length_append, List.length_take_of_le h]
  rw [memcpy, ← hl, List.take_left]

theorem take_memcpy_front (dst src : Bytes) : (memcpy dst 0 src).take src.length = src := by
  rw [memcpy, List.take_zero, List.nil_append, List.take_left]

theorem memcpy_nil (dst : Bytes) (off : ℕ) : memcpy dst off [] = dst := by
  rw [memcpy, List.append_nil, List.length_nil, Nat.add_zero, List.take_append_drop]

/-- Two copies, one right behind the other, are one. -/
theorem memcpy_append {dst a : Bytes} {off : ℕ} (h : off + a.length ≤ dst.length) (b : Bytes) :
    memcpy (memcpy dst off a) (off + a.length) b = memcpy dst off (a ++ b) := by
  have hl : (dst.take off ++ a).length = off + a.length := by
    rw [List.length_append, List.length_take_of_le (by omega)]
  have hdrop : (memcpy dst off a).drop (off + a.length + b.length) =
      dst.drop (off + (a ++ b).length) := by
    rw [memcpy, ← hl, ← List.drop_drop, List.drop_left, List.drop_drop, hl, List.length_append,
      Nat.add_assoc]
  rw [memcpy, take_memcpy (by omega), hdrop, memcpy]
  simp only [List.append_assoc]

theorem cInt_of_lt {n : ℕ} (h : n < 2 ^ 31) : cInt n = n := by
  have h31 : n < 2147483648 := by simpa using h
  have h32 : (2 : ℕ) ^ 32 = 4294967296 := by norm_num
  unfold cInt
  rw [h32]
  refine Int.bmod_eq_of_le ?_ ?_
  · omega
  · omega

theorem cInt_lt (n : ℕ) : cInt n < 2147483648 := by
  unfold cInt
  have h32 : (2 : ℕ) ^ 32 = 4294967296 := by norm_num
  rw [h32]
  have h := @Int.bmod_lt n 4294967296 (by norm_num)
  refine h.trans_le ?_
  norm_num

@[simp] theorem length_be64 (seq : ℕ) : (be64 seq).length = 8 := by simp [be64]

theorem readBE_be64 {seq : ℕ} (h : seq < 2 ^ 64) : readBE (be64 seq) = seq := by
  have hb (n : ℕ) : (UInt8.ofNat n).toNat = n % 256 := UInt8.toNat_ofNat'
  simp only [readBE, be64, List.range, List.range.loop, List.map, List.foldl, hb,
    Nat.shiftRight_eq_div_pow]
  omega

end Ktls
