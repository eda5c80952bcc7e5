import Mathlib.Data.List.Basic
import Mathlib.Data.Nat.Notation

/-!
UTF-8 between strings, as lists of characters, and bytes. Decoding never fails: where
no character can be read it puts the replacement character for the longest run of
bytes that begins a character, or else for one byte. So it inverts the encoding and
loses exactly the byte strings that encode nothing.
-/
namespace Utf8

def encode (text : List Char) : List UInt8 := text.flatMap String.utf8EncodeChar

def replacement : Char := Char.ofNat 0xFFFD

/-- The number of bytes after the first byte of a character, and the least and the
greatest second byte. -/
def tailOf (b : UInt8) : ℕ × UInt8 × UInt8 :=
  if 0xC2 ≤ b ∧ b ≤ 0xDF then (1, 0x80, 0xBF)
  else if b = 0xE0 then (2, 0xA0, 0xBF)
  else if b = 0xED then (2, 0x80, 0x9F)
  else if 0xE1 ≤ b ∧ b ≤ 0xEF then (2, 0x80, 0xBF)
  else if b = 0xF0 then (3, 0x90, 0xBF)
  else if b = 0xF4 then (3, 0x80, 0x8F)
  else if 0xF1 ≤ b ∧ b ≤ 0xF3 then (3, 0x80, 0xBF)
  else (0, 0x80, 0xBF)

/-- How many of the next bytes continue a character that needs `owed` more of them. -/
def continued : (owed : ℕ) → (low high : UInt8) → List UInt8 → ℕ
  | owed + 1, low, high, b :: bs =>
    if low ≤ b ∧ b ≤ high then 1 + continued owed 0x80 0xBF bs else 0
  | _, _, _, _ => 0

/-- The length of the ill-formed sequence that one replacement character stands for. -/
def illFormed : List UInt8 → ℕ
  | [] => 0
  | b :: bs => 1 + continued (tailOf b).1 (tailOf b).2.1 (tailOf b).2.2 bs

/-- Decoding in at most `rounds` characters. -/
def decodeLoop : (rounds : ℕ) → List UInt8 → List Char
  | 0, _ => []
  | _ + 1, [] => []
  | rounds + 1, b :: bs =>
    match ByteArray.utf8DecodeChar? (b :: bs).toByteArray 0 with
    | some c => c :: decodeLoop rounds ((b :: bs).drop c.utf8Size)
    | none => replacement :: decodeLoop rounds ((b :: bs).drop (illFormed (b :: bs)))

def decode (bytes : List UInt8) : List Char := decodeLoop bytes.length bytes

def WellFormed (bytes : List UInt8) : Prop := ∃ text, encode text = bytes

theorem encode_cons (c : Char) (text : List Char) :
    encode (c :: text) = String.utf8EncodeChar c ++ encode text := rfl

theorem decodeChar_append (c : Char) (rest : List UInt8) :
    ByteArray.utf8DecodeChar? (String.utf8EncodeChar c ++ rest).toByteArray 0 = some c := by
  rw [List.toByteArray_append]
  exact ByteArray.utf8DecodeChar?_utf8EncodeChar_append

theorem decodeLoop_encode (text : List Char) {rounds : ℕ} (h : (encode text).length ≤ rounds) :
    decodeLoop rounds (encode text) = text := by
  induction text generalizing rounds with
  | nil => cases rounds <;> rfl
  | cons c text ih =>
    have hsize := String.length_utf8EncodeChar c
    have hpos := c.utf8Size_pos
    rw [encode_cons, List.length_append] at h
    cases rounds with
    | zero => omega
    | succ rounds =>
      rw [encode_cons]
      obtain ⟨b, bs, hb⟩ : ∃ b bs, String.utf8EncodeChar c ++ encode text = b :: bs :=
        List.exists_cons_of_length_pos (by rw [List.length_append]; omega)
      have hchar := decodeChar_append c (encode text)
      have hdrop : (String.utf8EncodeChar c ++ encode text).drop c.utf8Size = encode text :=
        List.drop_left' hsize
      rw [hb] at hchar hdrop ⊢
      unfold decodeLoop
      simp only [hchar, hdrop]
      rw [ih (by omega)]

theorem decode_encode (text : List Char) : decode (encode text) = text :=
  decodeLoop_encode text (Nat.le_refl _)

theorem encode_injective : Function.Injective encode := fun a b h => by
  rw [← decode_encode a, h, decode_encode]

theorem utf8EncodeChar_low {c : Char} (h : c.toNat < 0x80) :
    String.utf8EncodeChar c = [UInt8.ofNat c.toNat] := if_pos (Nat.le_of_lt_succ h)

theorem le_of_mem_utf8EncodeChar {c : Char} {b : UInt8} (h : 0x80 ≤ c.toNat)
    (hmem : b ∈ String.utf8EncodeChar c) : 0x80 ≤ b.toNat := by
  have hbyte : ∀ n, 0x80 ≤ n → n < 0x100 → 0x80 ≤ (UInt8.ofNat n).toNat := by
    intro n hle hlt
    rwa [UInt8.toNat_ofNat', Nat.mod_eq_of_lt hlt]
  unfold String.utf8EncodeChar at hmem
  dsimp only at hmem
  rw [if_neg (show ¬ c.val.toNat ≤ 0x7f from Nat.not_le.mpr h)] at hmem
  -- two, three or four bytes
  split at hmem
  · simp only [List.mem_cons, List.not_mem_nil, or_false] at hmem
    rcases hmem with rfl | rfl <;> exact hbyte _ (by omega) (by omega)
  · split at hmem
    · simp only [List.mem_cons, List.not_mem_nil, or_false] at hmem
      rcases hmem with rfl | rfl | rfl <;> exact hbyte _ (by omega) (by omega)
    · simp only [List.mem_cons, List.not_mem_nil, or_false] at hmem
      rcases hmem with rfl | rfl | rfl | rfl <;> exact hbyte _ (by omega) (by omega)

theorem mem_utf8EncodeChar_iff {c d : Char} (h : c.toNat < 0x80) :
    UInt8.ofNat c.toNat ∈ String.utf8EncodeChar d ↔ d = c := by
  have hvalue : (UInt8.ofNat c.toNat).toNat = c.toNat := by
    rw [UInt8.toNat_ofNat', Nat.mod_eq_of_lt (by omega)]
  by_cases hd : d.toNat < 0x80
  · have hother : (UInt8.ofNat d.toNat).toNat = d.toNat := by
      rw [UInt8.toNat_ofNat', Nat.mod_eq_of_lt (by omega)]
    rw [utf8EncodeChar_low hd, List.mem_singleton]
    constructor
    · intro heq
      apply Char.toNat_inj.mp
      rw [← hvalue, heq, hother]
    · rintro rfl
      rfl
  · constructor
    · intro hmem
      have hle := le_of_mem_utf8EncodeChar (Nat.not_lt.mp hd) hmem
      omega
    · rintro rfl
      omega

theorem mem_encode_iff {c : Char} (h : c.toNat < 0x80) {text : List Char} :
    UInt8.ofNat c.toNat ∈ encode text ↔ c ∈ text := by
  unfold encode
  rw [List.mem_flatMap]
  constructor
  · rintro ⟨d, hd, hmem⟩
    rwa [← (mem_utf8EncodeChar_iff h).mp hmem]
  · intro hmem
    exact ⟨c, hmem, (mem_utf8EncodeChar_iff h).mpr rfl⟩

/-- Decoding and encoding again changes exactly the ill-formed byte strings. -/
theorem encode_decode_iff {bytes : List UInt8} : encode (decode bytes) = bytes ↔
    WellFormed bytes := by
  constructor
  · intro h
    exact ⟨decode bytes, h⟩
  · rintro ⟨text, rfl⟩
    rw [decode_encode]

end Utf8
