import Mathlib.Data.List.Basic
import Mathlib.Data.Nat.Notation

/-!
Base 64 for URLs: bytes as letters, digits, `-` and `_`, three bytes in four characters
and no padding. Decoding inverts the encoding.
-/
namespace Base64Url

/-- The character of a number below 64. -/
def digit (n : ℕ) : Char :=
  if n < 26 then Char.ofNat (65 + n)
  else if n < 52 then Char.ofNat (97 + (n - 26))
  else if n < 62 then Char.ofNat (48 + (n - 52))
  else if n = 62 then '-'
  else '_'

def value (c : Char) : ℕ :=
  if c = '-' then 62
  else if c = '_' then 63
  else if 97 ≤ c.toNat then 26 + (c.toNat - 97)
  else if 65 ≤ c.toNat then c.toNat - 65
  else 52 + (c.toNat - 48)

def encode : List UInt8 → List Char
  | [] => []
  | [x] => [digit (x.toNat / 4), digit (x.toNat % 4 * 16)]
  | [x, y] =>
    [digit (x.toNat / 4), digit (x.toNat % 4 * 16 + y.toNat / 16), digit (y.toNat % 16 * 4)]
  | x :: y :: z :: rest =>
    digit (x.toNat / 4) :: digit (x.toNat % 4 * 16 + y.toNat / 16) ::
      digit (y.toNat % 16 * 4 + z.toNat / 64) :: digit (z.toNat % 64) :: encode rest

def decode : List Char → List UInt8
  | a :: b :: c :: d :: rest =>
    UInt8.ofNat (value a * 4 + value b / 16) ::
      UInt8.ofNat (value b % 16 * 16 + value c / 4) ::
        UInt8.ofNat (value c % 4 * 64 + value d) :: decode rest
  | [a, b, c] =>
    [UInt8.ofNat (value a * 4 + value b / 16), UInt8.ofNat (value b % 16 * 16 + value c / 4)]
  | [a, b] => [UInt8.ofNat (value a * 4 + value b / 16)]
  | _ => []

theorem value_digit {n : ℕ} (h : n < 64) : value (digit n) = n := by
  revert n
  decide

theorem digit_plain {n : ℕ} (h : n < 64) : (digit n).toNat < 0x80 ∧ digit n ≠ '.' := by
  revert n
  decide

theorem decode_encode (bytes : List UInt8) : decode (encode bytes) = bytes := by
  induction bytes using encode.induct with
  | case1 => rfl
  | case2 x =>
    have hx := x.toNat_lt
    have h1 : x.toNat / 4 * 4 + x.toNat % 4 * 16 / 16 = x.toNat := by omega
    simp only [encode, decode]
    rw [value_digit (by omega), value_digit (by omega), h1, UInt8.ofNat_toNat]
  | case3 x y =>
    have hx := x.toNat_lt
    have hy := y.toNat_lt
    have h1 : x.toNat / 4 * 4 + (x.toNat % 4 * 16 + y.toNat / 16) / 16 = x.toNat := by omega
    have h2 : (x.toNat % 4 * 16 + y.toNat / 16) % 16 * 16 + y.toNat % 16 * 4 / 4 = y.toNat := by
      omega
    simp only [encode, decode]
    rw [value_digit (by omega), value_digit (by omega), value_digit (by omega), h1, h2,
      UInt8.ofNat_toNat, UInt8.ofNat_toNat]
  | case4 x y z rest ih =>
    have hx := x.toNat_lt
    have hy := y.toNat_lt
    have hz := z.toNat_lt
    have h1 : x.toNat / 4 * 4 + (x.toNat % 4 * 16 + y.toNat / 16) / 16 = x.toNat := by omega
    have h2 : (x.toNat % 4 * 16 + y.toNat / 16) % 16 * 16 + (y.toNat % 16 * 4 + z.toNat / 64) / 4 =
        y.toNat := by
      omega
    have h3 : (y.toNat % 16 * 4 + z.toNat / 64) % 4 * 64 + z.toNat % 64 = z.toNat := by omega
    simp only [encode, decode]
    rw [value_digit (by omega), value_digit (by omega), value_digit (by omega),
      value_digit (by omega), h1, h2, h3, ih, UInt8.ofNat_toNat, UInt8.ofNat_toNat,
      UInt8.ofNat_toNat]

theorem mem_encode {c : Char} {bytes : List UInt8} (h : c ∈ encode bytes) :
    c.toNat < 0x80 ∧ c ≠ '.' := by
  induction bytes using encode.induct with
  | case1 => cases h
  | case2 x =>
    have hx := x.toNat_lt
    simp only [encode, List.mem_cons, List.not_mem_nil, or_false] at h
    rcases h with rfl | rfl <;> exact digit_plain (by omega)
  | case3 x y =>
    have hx := x.toNat_lt
    have hy := y.toNat_lt
    simp only [encode, List.mem_cons, List.not_mem_nil, or_false] at h
    rcases h with rfl | rfl | rfl <;> exact digit_plain (by omega)
  | case4 x y z rest ih =>
    have hx := x.toNat_lt
    have hy := y.toNat_lt
    have hz := z.toNat_lt
    simp only [encode, List.mem_cons] at h
    rcases h with rfl | rfl | rfl | rfl | h
    · exact digit_plain (by omega)
    · exact digit_plain (by omega)
    · exact digit_plain (by omega)
    · exact digit_plain (by omega)
    · exact ih h

end Base64Url
