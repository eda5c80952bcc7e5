import NervFS.Lib.BigEndian
import Mathlib.Data.List.TakeDrop

/-!
The operations of Node's `Buffer` on byte lists: big-endian integer reads and writes,
which fail outside the buffer or the range of the integer, copying and slicing, which
clamp instead, and the rounding of a large integer to a number.
-/
namespace NodeBuffer

open BigEndian

abbrev Buffer := List UInt8

/-- `Buffer.alloc`. -/
def alloc (size : ℕ) : Buffer := List.replicate size 0

/-- The buffer with the bytes from `off` on replaced. -/
def patch (buf data : Buffer) (off : ℕ) : Buffer :=
  buf.take off ++ (data ++ buf.drop (off + data.length))

/-- `writeUInt8`, `writeUInt16BE`, `writeUInt32BE` and `writeBigUInt64BE`, by their width;
`none` is a `RangeError`. -/
def writeUIntBE (width : ℕ) (buf : Buffer) (value off : ℕ) : Option Buffer :=
  if value < 256 ^ width ∧ off + width ≤ buf.length then
    some (patch buf (toBytes width value) off)
  else none

/-- The reads that match the writes. -/
def readUIntBE (width : ℕ) (buf : Buffer) (off : ℕ) : Option ℕ :=
  if off + width ≤ buf.length then some (ofBytes ((buf.drop off).take width)) else none

/-- `source.copy(target, start)` copies what fits. -/
def copy (source target : Buffer) (start : ℕ) : Buffer :=
  patch target (source.take (target.length - start)) start

def subarray (buf : Buffer) (start finish : ℕ) : Buffer := (buf.take finish).drop start

/-- The number that an integer is converted to: the nearest one with 53 significant bits,
the even one of two. -/
def toNumber (n : ℕ) : ℕ :=
  if n < 2 ^ 53 then n
  else
    let ulp := 2 ^ (n.log2 - 52)
    let q := n / ulp
    let r := n % ulp
    if 2 * r < ulp ∨ 2 * r = ulp ∧ q % 2 = 0 then q * ulp else (q + 1) * ulp

@[simp] theorem alloc_length (size : ℕ) : (alloc size).length = size := List.length_replicate

theorem alloc_add (m n : ℕ) : alloc (m + n) = alloc m ++ alloc n := List.replicate_add ..

theorem patch_append (a b c data : Buffer) (h : b.length = data.length) :
    patch (a ++ (b ++ c)) data a.length = a ++ (data ++ c) := by
  unfold patch
  rw [List.take_left' rfl, ← List.append_assoc a b c, List.drop_left' (by simp [h])]

theorem writeUIntBE_append {width value : ℕ} (a b c : Buffer) (h : b.length = width)
    (hvalue : value < 256 ^ width) :
    writeUIntBE width (a ++ (b ++ c)) value a.length = some (a ++ (toBytes width value ++ c)) := by
  unfold writeUIntBE
  rw [if_pos, patch_append a b c _ (by rw [toBytes_length, h])]
  refine ⟨hvalue, ?_⟩
  simp only [List.length_append]
  omega

theorem writeUIntBE_range {width value : ℕ} (buf : Buffer) (off : ℕ) (h : ¬ value < 256 ^ width) :
    writeUIntBE width buf value off = none := if_neg fun hc => h hc.1

theorem copy_append (a b c source : Buffer) (h : b.length = source.length) :
    copy source (a ++ (b ++ c)) a.length = a ++ (source ++ c) := by
  unfold copy
  rw [List.take_of_length_le, patch_append a b c _ h]
  simp only [List.length_append]
  omega

theorem readUIntBE_append {width : ℕ} (a b c : Buffer) (h : b.length = width) :
    readUIntBE width (a ++ (b ++ c)) a.length = some (ofBytes b) := by
  unfold readUIntBE
  rw [if_pos, List.drop_left' rfl, List.take_left' h]
  simp only [List.length_append]
  omega

theorem subarray_append (a b c : Buffer) :
    subarray (a ++ (b ++ c)) a.length (a.length + b.length) = b := by
  unfold subarray
  rw [← List.append_assoc, List.take_left' (by simp), List.drop_left' rfl]

theorem toNumber_of_lt {n : ℕ} (h : n < 2 ^ 53) : toNumber n = n := if_pos h

theorem le_toNumber {n : ℕ} (h : 2 ^ 53 ≤ n) : 2 ^ 53 ≤ toNumber n := by
  have hlog : 53 ≤ n.log2 := by
    rw [Nat.le_log2 (by omega)]
    exact h
  have hpow : 2 ^ n.log2 ≤ n := Nat.log2_self_le (by omega)
  have hsplit : 2 ^ n.log2 = 2 ^ 52 * 2 ^ (n.log2 - 52) := by
    rw [← Nat.pow_add]
    congr 1
    omega
  have hulp : 2 ^ 1 ≤ 2 ^ (n.log2 - 52) := Nat.pow_le_pow_right (by omega) (by omega)
  have hq : 2 ^ 52 ≤ n / 2 ^ (n.log2 - 52) := by
    rw [Nat.le_div_iff_mul_le (by omega)]
    omega
  have hmul : ∀ q, 2 ^ 52 ≤ q → 2 ^ 53 ≤ q * 2 ^ (n.log2 - 52) := by
    intro q hle
    calc 2 ^ 53 = 2 ^ 52 * 2 ^ 1 := by omega
      _ ≤ q * 2 ^ (n.log2 - 52) := Nat.mul_le_mul hle hulp
  unfold toNumber
  rw [if_neg (by omega)]
  dsimp only
  split
  · exact hmul _ hq
  · exact hmul _ (by omega)

end NodeBuffer
