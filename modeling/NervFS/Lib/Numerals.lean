import Mathlib.Data.Nat.Digits.Defs
import Mathlib.Data.List.Induction
import Mathlib.Data.List.TakeWhile
import Mathlib.Data.Nat.Notation

/-!
Numerals with a radix of at most ten: the integer at the front of a text, behind blanks and
a sign, and numbers written with leading zeros up to a width. What is written is read back,
and a numeral that is no wider than the width is written again as it was but for its
leading zeros.
-/
namespace Numerals

def IsDigit (radix : ℕ) (c : Char) : Prop := '0' ≤ c ∧ c.toNat - '0'.toNat < radix

instance (radix : ℕ) (c : Char) : Decidable (IsDigit radix c) :=
  inferInstanceAs (Decidable (_ ∧ _))

/-- The blanks and the line ends of Unicode. -/
def isBlank (c : Char) : Bool :=
  c.toNat ∈ [0x9, 0xA, 0xB, 0xC, 0xD, 0x20, 0xA0, 0x1680, 0x2028, 0x2029, 0x202F, 0x205F, 0x3000,
    0xFEFF] || decide (0x2000 ≤ c.toNat ∧ c.toNat ≤ 0x200A)

/-- The sign at the front of a text and what is behind it. -/
def signOf : List Char → Bool × List Char
  | '-' :: rest => (true, rest)
  | '+' :: rest => (false, rest)
  | text => (false, text)

def digitsOf (radix : ℕ) (text : List Char) : List Char :=
  text.takeWhile fun c => decide (IsDigit radix c)

/-- The integer at the front of a text; `none` where there are no digits. -/
def parseInt (radix : ℕ) (text : List Char) : Option ℤ :=
  let (negative, rest) := signOf (text.dropWhile isBlank)
  let digits := digitsOf radix rest
  if digits = [] then none
  else
    let value : ℤ := Nat.ofDigitChars radix digits 0
    some (if negative then -value else value)

def padStart (width : ℕ) (fill : Char) (text : List Char) : List Char :=
  List.replicate (width - text.length) fill ++ text

section Digits
variable {radix : ℕ} {c : Char} {digits : List Char}

theorem isDigit_digitChar {n : ℕ} (hn : n < radix) (hten : radix ≤ 10) :
    IsDigit radix n.digitChar := by
  have hsmall : n < 10 := by omega
  have hvalue : ∀ k < 10, '0' ≤ k.digitChar ∧ k.digitChar.toNat - '0'.toNat = k := by decide
  obtain ⟨hle, heq⟩ := hvalue n hsmall
  exact ⟨hle, by rw [heq]; exact hn⟩

theorem isDigit_of_mem_toDigits (hradix : 1 < radix) (hten : radix ≤ 10) (n : ℕ) :
    ∀ c ∈ Nat.toDigits radix n, IsDigit radix c := by
  induction n using Nat.strongRecOn with
  | ind n ih =>
    by_cases hn : n < radix
    · rw [Nat.toDigits_of_lt_base hn]
      intro c hc
      rw [List.mem_singleton.mp hc]
      exact isDigit_digitChar hn hten
    · rw [Nat.toDigits_of_base_le hradix (Nat.not_lt.mp hn)]
      intro c hc
      rcases List.mem_append.mp hc with hc | hc
      · exact ih _ (Nat.div_lt_self (by omega) hradix) c hc
      · rw [List.mem_singleton.mp hc]
        exact isDigit_digitChar (Nat.mod_lt _ (by omega)) hten

theorem not_isBlank_of_isDigit (hten : radix ≤ 10) (h : IsDigit radix c) : isBlank c = false := by
  obtain ⟨hle, hlt⟩ := h
  have hle' : 48 ≤ c.toNat := UInt32.le_iff_toNat_le.mp hle
  have hlt' : c.toNat - 48 < radix := hlt
  unfold isBlank
  simp only [Bool.or_eq_false_iff, decide_eq_false_iff_not, List.mem_cons, List.not_mem_nil,
    or_false]
  omega

theorem parseInt_digits (hten : radix ≤ 10) (hne : digits ≠ [])
    (h : ∀ c ∈ digits, IsDigit radix c) :
    parseInt radix digits = some (Nat.ofDigitChars radix digits 0 : ℤ) := by
  have hdigits : digitsOf radix digits = digits :=
    List.takeWhile_eq_self_iff.mpr fun c hc => decide_eq_true (h c hc)
  obtain ⟨c, rest, rfl⟩ := List.exists_cons_of_ne_nil hne
  have hc := h c List.mem_cons_self
  have hblank : (c :: rest).dropWhile isBlank = c :: rest :=
    List.dropWhile_cons_of_neg (by rw [not_isBlank_of_isDigit hten hc]; exact Bool.false_ne_true)
  have hsign : signOf (c :: rest) = (false, c :: rest) := by
    have hminus : c ≠ '-' := by
      rintro rfl
      exact absurd hc.1 (by decide)
    have hplus : c ≠ '+' := by
      rintro rfl
      exact absurd hc.1 (by decide)
    unfold signOf
    split
    · rename_i heq
      exact absurd (List.cons.inj heq).1 hminus
    · rename_i heq
      exact absurd (List.cons.inj heq).1 hplus
    · rfl
  unfold parseInt
  rw [hblank, hsign]
  dsimp only
  rw [hdigits, if_neg hne]
  rfl

theorem ofDigitChars_padStart (width : ℕ) :
    Nat.ofDigitChars radix (padStart width '0' digits) 0 = Nat.ofDigitChars radix digits 0 := by
  unfold padStart
  rw [Nat.ofDigitChars_append, Nat.ofDigitChars_replicate_zero, Nat.mul_zero]

theorem isDigit_padStart (hradix : 0 < radix) {width : ℕ} (h : ∀ c ∈ digits, IsDigit radix c) :
    ∀ c ∈ padStart width '0' digits, IsDigit radix c := by
  intro c hc
  rcases List.mem_append.mp hc with hc | hc
  · rw [List.eq_of_mem_replicate hc]
    exact ⟨by decide, hradix⟩
  · exact h c hc

theorem padStart_length {width : ℕ} {fill : Char} (h : digits.length ≤ width) :
    (padStart width fill digits).length = width := by
  unfold padStart
  rw [List.length_append, List.length_replicate]
  omega

theorem parseInt_padStart (hradix : 1 < radix) (hten : radix ≤ 10) (width n : ℕ) :
    parseInt radix (padStart width '0' (Nat.toDigits radix n)) = some (n : ℤ) := by
  have hdigits := isDigit_of_mem_toDigits hradix hten n
  rw [parseInt_digits hten, ofDigitChars_padStart, Nat.ofDigitChars_toDigits hradix hten]
  · exact List.append_ne_nil_of_right_ne_nil _ Nat.toDigits_ne_nil
  · exact isDigit_padStart (by omega) hdigits

theorem parseInt_toDigits (hradix : 1 < radix) (hten : radix ≤ 10) (n : ℕ) :
    parseInt radix (Nat.toDigits radix n) = some (n : ℤ) := by
  have h := parseInt_padStart hradix hten 0 n
  unfold padStart at h
  rwa [Nat.zero_sub, List.replicate_zero, List.nil_append] at h

theorem ofDigitChars_eq (digits : List Char) : Nat.ofDigitChars radix digits 0 =
    Nat.ofDigits radix (digits.reverse.map fun c => c.toNat - '0'.toNat) := by
  induction digits using List.reverseRec with
  | nil => simp
  | append_singleton digits c ih =>
    rw [Nat.ofDigitChars_append, ih, List.reverse_append, List.reverse_singleton,
      List.singleton_append, List.map_cons, Nat.ofDigits_cons, Nat.ofDigitChars_cons,
      Nat.ofDigitChars_nil]
    exact Nat.add_comm _ _

theorem digits_unique (hradix : 1 < radix) {a b : List Char} (hlen : a.length = b.length)
    (ha : ∀ c ∈ a, IsDigit radix c) (hb : ∀ c ∈ b, IsDigit radix c)
    (h : Nat.ofDigitChars radix a 0 = Nat.ofDigitChars radix b 0) : a = b := by
  rw [ofDigitChars_eq, ofDigitChars_eq] at h
  have hbound : ∀ {l : List Char}, (∀ c ∈ l, IsDigit radix c) →
      ∀ d ∈ l.reverse.map (fun c => c.toNat - '0'.toNat), d < radix := by
    intro l hl d hd
    obtain ⟨c, hc, rfl⟩ := List.mem_map.mp hd
    exact (hl c (List.mem_reverse.mp hc)).2
  have hsame := Nat.ofDigits_inj_of_len_eq hradix (by simp [hlen]) (hbound ha) (hbound hb) h
  rw [List.map_reverse, List.map_reverse, List.reverse_inj] at hsame
  clear h hbound
  induction a generalizing b with
  | nil => exact (List.length_eq_zero_iff.mp hlen.symm).symm
  | cons c a ih =>
    cases b with
    | nil => cases hlen
    | cons d b =>
      rw [List.map_cons, List.map_cons] at hsame
      obtain ⟨hhead, htail⟩ := List.cons.inj hsame
      have hc : 48 ≤ c.toNat := UInt32.le_iff_toNat_le.mp (ha c List.mem_cons_self).1
      have hd : 48 ≤ d.toNat := UInt32.le_iff_toNat_le.mp (hb d List.mem_cons_self).1
      have hval : '0'.toNat = 48 := rfl
      have heq : c = d := Char.toNat_inj.mp (by omega)
      rw [heq, ih (Nat.succ.inj hlen) (fun x hx => ha x (List.mem_cons_of_mem _ hx))
        (fun x hx => hb x (List.mem_cons_of_mem _ hx)) htail]

theorem ofDigitChars_lt (hradix : 1 < radix) (h : ∀ c ∈ digits, IsDigit radix c) :
    Nat.ofDigitChars radix digits 0 < radix ^ digits.length := by
  rw [ofDigitChars_eq]
  have hlt := Nat.ofDigits_lt_base_pow_length hradix
    (l := digits.reverse.map fun c => c.toNat - '0'.toNat) (by
      intro d hd
      obtain ⟨c, hc, rfl⟩ := List.mem_map.mp hd
      exact (h c (List.mem_reverse.mp hc)).2)
  rwa [List.length_map, List.length_reverse] at hlt

theorem toDigits_length_le (hradix : 1 < radix) (hne : digits ≠ [])
    (h : ∀ c ∈ digits, IsDigit radix c) :
    (Nat.toDigits radix (Nat.ofDigitChars radix digits 0)).length ≤ digits.length :=
  (Nat.length_toDigits_le_iff hradix (List.length_pos_iff.mpr hne)).mpr (ofDigitChars_lt hradix h)

/-- Writing what was read gives the numeral again, with its zeros filled up. -/
theorem padStart_toDigits (hradix : 1 < radix) (hten : radix ≤ 10) (hne : digits ≠ []) {width : ℕ}
    (hwidth : digits.length ≤ width) (h : ∀ c ∈ digits, IsDigit radix c) :
    padStart width '0' (Nat.toDigits radix (Nat.ofDigitChars radix digits 0)) =
      padStart width '0' digits := by
  have hshort := toDigits_length_le hradix hne h
  apply digits_unique hradix
  · rw [padStart_length (hshort.trans hwidth), padStart_length hwidth]
  · exact isDigit_padStart (by omega) (isDigit_of_mem_toDigits hradix hten _)
  · exact isDigit_padStart (by omega) h
  · rw [ofDigitChars_padStart, ofDigitChars_padStart, Nat.ofDigitChars_toDigits hradix hten]

end Digits

end Numerals
