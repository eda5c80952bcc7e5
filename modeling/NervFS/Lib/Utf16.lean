import NervFS.Lib.Utf8
import Mathlib.Data.List.Basic
import Mathlib.Data.Nat.Notation

/-!
UTF-16 between texts, as lists of characters, and strings of 16-bit units. A unit string
may hold surrogates that pair with nothing; decoding puts the replacement character for
each of them and otherwise inverts the encoding.
-/
namespace Utf16

def units (c : Char) : List UInt16 :=
  if c.toNat < 0x10000 then [UInt16.ofNat c.toNat]
  else
    [UInt16.ofNat (0xD800 + (c.toNat - 0x10000) / 0x400),
      UInt16.ofNat (0xDC00 + (c.toNat - 0x10000) % 0x400)]

def encode (text : List Char) : List UInt16 := text.flatMap units

def IsHigh (u : UInt16) : Prop := 0xD800 ≤ u.toNat ∧ u.toNat < 0xDC00

def IsLow (u : UInt16) : Prop := 0xDC00 ≤ u.toNat ∧ u.toNat < 0xE000

instance (u : UInt16) : Decidable (IsHigh u) := inferInstanceAs (Decidable (_ ∧ _))

instance (u : UInt16) : Decidable (IsLow u) := inferInstanceAs (Decidable (_ ∧ _))

/-- The character that a unit stands for on its own. -/
def single (u : UInt16) : Char :=
  if IsHigh u ∨ IsLow u then Utf8.replacement else Char.ofNat u.toNat

/-- The character that a high and a low surrogate stand for. -/
def pair (u v : UInt16) : Char :=
  Char.ofNat (0x10000 + (u.toNat - 0xD800) * 0x400 + (v.toNat - 0xDC00))

def decode : List UInt16 → List Char
  | [] => []
  | [u] => [single u]
  | u :: v :: rest =>
    if IsHigh u ∧ IsLow v then pair u v :: decode rest else single u :: decode (v :: rest)

theorem scalar (c : Char) : c.toNat < 0xD800 ∨ 0xDFFF < c.toNat ∧ c.toNat < 0x110000 := c.valid

theorem toNat_ofNat {n : ℕ} (h : n.isValidChar) : (Char.ofNat n).toNat = n := by
  unfold Char.ofNat
  rw [dif_pos h]
  rfl

theorem units_one {c : Char} (h : c.toNat < 0x10000) :
    units c = [UInt16.ofNat c.toNat] ∧ (UInt16.ofNat c.toNat).toNat = c.toNat :=
  ⟨if_pos h, by rw [UInt16.toNat_ofNat', Nat.mod_eq_of_lt h]⟩

theorem units_two {c : Char} (h : 0x10000 ≤ c.toNat) :
    ∃ u v, units c = [u, v] ∧ IsHigh u ∧ IsLow v ∧ pair u v = c := by
  have hlt : c.toNat < 0x110000 := by
    have hscalar := scalar c
    omega
  have hhigh : (UInt16.ofNat (0xD800 + (c.toNat - 0x10000) / 0x400)).toNat =
      0xD800 + (c.toNat - 0x10000) / 0x400 := by
    rw [UInt16.toNat_ofNat', Nat.mod_eq_of_lt (by omega)]
  have hlow : (UInt16.ofNat (0xDC00 + (c.toNat - 0x10000) % 0x400)).toNat =
      0xDC00 + (c.toNat - 0x10000) % 0x400 := by
    rw [UInt16.toNat_ofNat', Nat.mod_eq_of_lt (by omega)]
  refine ⟨_, _, if_neg (by omega), ?_, ?_, ?_⟩
  · unfold IsHigh
    omega
  · unfold IsLow
    omega
  · unfold pair
    rw [hhigh, hlow]
    have hsum : 0x10000 + (0xD800 + (c.toNat - 0x10000) / 0x400 - 0xD800) * 0x400 +
        (0xDC00 + (c.toNat - 0x10000) % 0x400 - 0xDC00) = c.toNat := by
      omega
    rw [hsum, Char.ofNat_toNat]

theorem encode_cons (c : Char) (text : List Char) : encode (c :: text) = units c ++ encode text :=
  rfl

theorem decode_cons {u : UInt16} (h : ¬ IsHigh u) (rest : List UInt16) :
    decode (u :: rest) = single u :: decode rest := by
  cases rest with
  | nil => rfl
  | cons v rest => exact if_neg fun hpair => h hpair.1

theorem decode_units_append (c : Char) (rest : List UInt16) :
    decode (units c ++ rest) = c :: decode rest := by
  by_cases h : c.toNat < 0x10000
  · obtain ⟨hunits, hvalue⟩ := units_one h
    have hscalar := scalar c
    have hhigh : ¬ IsHigh (UInt16.ofNat c.toNat) := by
      unfold IsHigh
      omega
    have hlow : ¬ IsLow (UInt16.ofNat c.toNat) := by
      unfold IsLow
      omega
    have hsingle : single (UInt16.ofNat c.toNat) = c := by
      unfold single
      rw [if_neg (not_or.mpr ⟨hhigh, hlow⟩), hvalue, Char.ofNat_toNat]
    rw [hunits, List.singleton_append, decode_cons hhigh, hsingle]
  · obtain ⟨u, v, hunits, hhigh, hlow, hpair⟩ := units_two (Nat.not_lt.mp h)
    rw [hunits]
    change (if IsHigh u ∧ IsLow v then pair u v :: decode rest else _) = _
    rw [if_pos ⟨hhigh, hlow⟩, hpair]

theorem decode_encode (text : List Char) : decode (encode text) = text := by
  induction text with
  | nil => rfl
  | cons c text ih => rw [encode_cons, decode_units_append, ih]

theorem encode_injective : Function.Injective encode := fun a b h => by
  rw [← decode_encode a, h, decode_encode]

theorem units_single {u : UInt16} (h : single u ≠ Utf8.replacement) : units (single u) = [u] := by
  have hlt := u.toNat_lt
  have hnot : ¬ (IsHigh u ∨ IsLow u) := fun hsurrogate => h (if_pos hsurrogate)
  have hvalid : u.toNat.isValidChar := by
    unfold IsHigh IsLow at hnot
    unfold Nat.isValidChar
    omega
  have hsingle : single u = Char.ofNat u.toNat := if_neg hnot
  have hvalue : (single u).toNat = u.toNat := by
    rw [hsingle, toNat_ofNat hvalid]
  rw [(units_one (by omega)).1, hvalue, UInt16.ofNat_toNat]

theorem units_pair {u v : UInt16} (hu : IsHigh u) (hv : IsLow v) : units (pair u v) = [u, v] := by
  obtain ⟨hu, hu'⟩ := hu
  obtain ⟨hv, hv'⟩ := hv
  have hvalue : (pair u v).toNat =
      0x10000 + (u.toNat - 0xD800) * 0x400 + (v.toNat - 0xDC00) := by
    apply toNat_ofNat
    unfold Nat.isValidChar
    omega
  have hhigh : 0xD800 + ((pair u v).toNat - 0x10000) / 0x400 = u.toNat := by omega
  have hlow : 0xDC00 + ((pair u v).toNat - 0x10000) % 0x400 = v.toNat := by omega
  unfold units
  rw [if_neg (by omega), hhigh, hlow, UInt16.ofNat_toNat, UInt16.ofNat_toNat]

/-- A unit string that decodes without a replacement is the encoding of what it decodes to. -/
theorem encode_decode {string : List UInt16} (h : Utf8.replacement ∉ decode string) :
    encode (decode string) = string := by
  induction string using decode.induct with
  | case1 => rfl
  | case2 u =>
    have hu : single u ≠ Utf8.replacement := fun heq => h (heq ▸ List.mem_singleton_self _)
    change units (single u) ++ [] = [u]
    rw [units_single hu, List.append_nil]
  | case3 u v rest hpair ih =>
    have hdecode : decode (u :: v :: rest) = pair u v :: decode rest := if_pos hpair
    rw [hdecode] at h ⊢
    rw [encode_cons, units_pair hpair.1 hpair.2, ih fun hmem => h (List.mem_cons_of_mem _ hmem)]
    rfl
  | case4 u v rest hpair ih =>
    have hdecode : decode (u :: v :: rest) = single u :: decode (v :: rest) := if_neg hpair
    rw [hdecode] at h ⊢
    have hu : single u ≠ Utf8.replacement := fun heq => h (heq ▸ List.mem_cons_self)
    rw [encode_cons, units_single hu, ih fun hmem => h (List.mem_cons_of_mem _ hmem)]
    rfl

theorem mem_units_iff {c d : Char} (h : c.toNat < 0x10000) :
    UInt16.ofNat c.toNat ∈ units d ↔ d = c := by
  obtain ⟨-, hvalue⟩ := units_one h
  by_cases hd : d.toNat < 0x10000
  · obtain ⟨hunits, hother⟩ := units_one hd
    rw [hunits, List.mem_singleton]
    constructor
    · intro heq
      apply Char.toNat_inj.mp
      rw [← hvalue, heq, hother]
    · rintro rfl
      rfl
  · obtain ⟨u, v, hunits, ⟨hu, hu'⟩, ⟨hv, hv'⟩, -⟩ := units_two (Nat.not_lt.mp hd)
    have hscalar := scalar c
    rw [hunits]
    constructor
    · intro hmem
      rcases List.mem_cons.mp hmem with rfl | hmem
      · omega
      · rw [List.mem_singleton] at hmem
        rw [hmem] at hvalue
        omega
    · rintro rfl
      omega

theorem mem_encode_iff {c : Char} (h : c.toNat < 0x10000) {text : List Char} :
    UInt16.ofNat c.toNat ∈ encode text ↔ c ∈ text := by
  unfold encode
  rw [List.mem_flatMap]
  constructor
  · rintro ⟨d, hd, hmem⟩
    rwa [← (mem_units_iff h).mp hmem]
  · intro hmem
    exact ⟨c, hmem, (mem_units_iff h).mpr rfl⟩

theorem units_length_le (c : Char) : (units c).length ≤ c.utf8Size := by
  by_cases h : c.toNat < 0x10000
  · rw [(units_one h).1]
    exact c.utf8Size_pos
  · obtain ⟨u, v, hunits, -⟩ := units_two (Nat.not_lt.mp h)
    have hlarge : 0xffff < c.val := UInt32.lt_iff_toNat_lt.mpr (Nat.not_lt.mp h)
    rw [hunits, Char.utf8Size_eq_four_iff.mpr hlarge]
    exact Nat.le_add_left 2 2

theorem encode_length_le (text : List Char) :
    (encode text).length ≤ (Utf8.encode text).length := by
  induction text with
  | nil => exact Nat.le_refl 0
  | cons c text ih =>
    rw [encode_cons, Utf8.encode_cons, List.length_append, List.length_append,
      String.length_utf8EncodeChar]
    exact Nat.add_le_add (units_length_le c) ih

end Utf16
