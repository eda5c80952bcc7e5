import Mathlib.Data.List.Basic
import Mathlib.Algebra.Order.Ring.Nat
import Mathlib.Tactic.Ring

/-!
Unsigned numbers as fixed-width big-endian byte strings. The two directions are
inverse: the value of an encoding is the number modulo the width, and the
encoding of a value gives the byte string back.
-/
namespace BigEndian

/-- The `width` low-order bytes of `n`, the most significant first. -/
def toBytes : (width : ℕ) → (n : ℕ) → List UInt8
  | 0, _ => []
  | width + 1, n => UInt8.ofNat (n / 256 ^ width) :: toBytes width n

def ofBytes : List UInt8 → ℕ
  | [] => 0
  | b :: bs => b.toNat * 256 ^ bs.length + ofBytes bs

@[simp] theorem toBytes_length (width n : ℕ) : (toBytes width n).length = width := by
  induction width with
  | zero => rfl
  | succ width ih => simp [toBytes, ih]

theorem ofBytes_lt (bs : List UInt8) : ofBytes bs < 256 ^ bs.length := by
  induction bs with
  | nil => simp [ofBytes]
  | cons b bs ih =>
    have hb : b.toNat + 1 ≤ 256 := b.toNat_lt
    calc ofBytes (b :: bs) < b.toNat * 256 ^ bs.length + 256 ^ bs.length := by
          simp only [ofBytes]
          omega
      _ = (b.toNat + 1) * 256 ^ bs.length := by ring
      _ ≤ 256 * 256 ^ bs.length := Nat.mul_le_mul_right _ hb
      _ = 256 ^ (b :: bs).length := by
          rw [List.length_cons, pow_succ]
          ring

theorem ofBytes_toBytes (width n : ℕ) : ofBytes (toBytes width n) = n % 256 ^ width := by
  induction width with
  | zero => simp [toBytes, ofBytes, Nat.mod_one]
  | succ width ih =>
    have hmod : n % 256 ^ (width + 1) =
        n % 256 ^ width + 256 ^ width * (n / 256 ^ width % 256) := Nat.mod_pow_succ
    simp only [toBytes, ofBytes, toBytes_length, ih, UInt8.toNat_ofNat', Nat.reducePow]
    rw [hmod, Nat.mul_comm (256 ^ width), Nat.add_comm]

theorem ofBytes_toBytes_of_lt {width n : ℕ} (h : n < 256 ^ width) :
    ofBytes (toBytes width n) = n := by
  rw [ofBytes_toBytes, Nat.mod_eq_of_lt h]

theorem toBytes_add_mul (width n k : ℕ) :
    toBytes width (k * 256 ^ width + n) = toBytes width n := by
  induction width generalizing k with
  | zero => rfl
  | succ width ih =>
    have hsplit : k * 256 ^ (width + 1) + n = k * 256 * 256 ^ width + n := by ring
    have hdiv : (k * 256 * 256 ^ width + n) / 256 ^ width = n / 256 ^ width + 256 * k := by
      rw [Nat.add_comm, Nat.add_mul_div_right _ _ (Nat.pow_pos (by omega)), Nat.mul_comm k]
    have hbyte : UInt8.ofNat (n / 256 ^ width + 256 * k) = UInt8.ofNat (n / 256 ^ width) := by
      apply UInt8.toNat_inj.mp
      simp [UInt8.toNat_ofNat']
    simp only [toBytes, hsplit, hdiv, hbyte, ih]

theorem toBytes_ofBytes (bs : List UInt8) : toBytes bs.length (ofBytes bs) = bs := by
  induction bs with
  | nil => rfl
  | cons b bs ih =>
    have hlt := ofBytes_lt bs
    have hdiv : (b.toNat * 256 ^ bs.length + ofBytes bs) / 256 ^ bs.length = b.toNat := by
      rw [Nat.add_comm, Nat.add_mul_div_right _ _ (Nat.pow_pos (by omega)),
        Nat.div_eq_of_lt hlt, Nat.zero_add]
    simp only [List.length_cons, toBytes, ofBytes, hdiv, toBytes_add_mul, ih]
    simp

section Width
variable {width : ℕ} {bs : List UInt8}

theorem ofBytes_lt_of_length (h : bs.length = width) : ofBytes bs < 256 ^ width := by
  rw [← h]
  exact ofBytes_lt bs

theorem toBytes_ofBytes_of_length (h : bs.length = width) : toBytes width (ofBytes bs) = bs := by
  rw [← h]
  exact toBytes_ofBytes bs

theorem toBytes_ofBytes_mod (h : bs.length = width) :
    toBytes width (ofBytes bs % 256 ^ width) = bs := by
  rw [Nat.mod_eq_of_lt (ofBytes_lt_of_length h), toBytes_ofBytes_of_length h]

end Width

end BigEndian
