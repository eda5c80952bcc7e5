import NervFS.Lib.Utf8

/-!
Percent encoding. The safe characters of a text stand for themselves, and of every other
character each byte of its UTF-8 is written as a percent sign and two hexadecimal digits.
Decoding reads as many bytes as the first of them announces and fails where they are not
those of a character, so whatever the safe characters are it inverts the encoding.
-/
namespace Percent

def hexDigit (n : ℕ) : Char := Char.ofNat (if n < 10 then 0x30 + n else 0x37 + n)

def hexValue (c : Char) : Option ℕ :=
  if '0' ≤ c ∧ c ≤ '9' then some (c.toNat - 0x30)
  else if 'A' ≤ c ∧ c ≤ 'F' then some (c.toNat - 0x37)
  else if 'a' ≤ c ∧ c ≤ 'f' then some (c.toNat - 0x57)
  else none

def escapeByte (b : UInt8) : List Char := ['%', hexDigit (b.toNat / 16), hexDigit (b.toNat % 16)]

def encodeChar (safe : Char → Bool) (c : Char) : List Char :=
  if safe c then [c] else (String.utf8EncodeChar c).flatMap escapeByte

def encode (safe : Char → Bool) (text : List Char) : List Char := text.flatMap (encodeChar safe)

def takeByte : List Char → Option (UInt8 × List Char)
  | '%' :: high :: low :: rest =>
    match hexValue high, hexValue low with
    | some high, some low => some (UInt8.ofNat (16 * high + low), rest)
    | _, _ => none
  | _ => none

def takeBytes : (count : ℕ) → List Char → Option (List UInt8 × List Char)
  | 0, text => some ([], text)
  | count + 1, text =>
    match takeByte text with
    | some (b, rest) => (takeBytes count rest).map fun p => (b :: p.1, p.2)
    | none => none

/-- The number of bytes of a character with the first byte `b`; zero when it begins none. -/
def sequenceLength (b : UInt8) : ℕ :=
  if b < 0x80 then 1
  else if b < 0xC0 then 0
  else if b < 0xE0 then 2
  else if b < 0xF0 then 3
  else if b < 0xF8 then 4
  else 0

/-- The character that a text with a percent sign in front starts with. -/
def takeEscaped (text : List Char) : Option (Char × List Char) :=
  match takeByte text with
  | none => none
  | some (b, _) =>
    match takeBytes (sequenceLength b) text with
    | none => none
    | some (bytes, rest) => (ByteArray.utf8DecodeChar? bytes.toByteArray 0).map fun c => (c, rest)

/-- Decoding in at most `rounds` characters. -/
def decodeLoop : (rounds : ℕ) → List Char → Option (List Char)
  | _, [] => some []
  | 0, _ :: _ => none
  | rounds + 1, c :: rest =>
    if c = '%' then
      match takeEscaped (c :: rest) with
      | none => none
      | some (d, rest) => (decodeLoop rounds rest).map (d :: ·)
    else (decodeLoop rounds rest).map (c :: ·)

/-- `none` is a text that is not the encoding of one. -/
def decode (text : List Char) : Option (List Char) := decodeLoop text.length text

theorem hexValue_hexDigit {n : ℕ} (h : n < 16) : hexValue (hexDigit n) = some n := by
  revert n
  decide

theorem takeByte_escapeByte (b : UInt8) (rest : List Char) :
    takeByte (escapeByte b ++ rest) = some (b, rest) := by
  have hb := b.toNat_lt
  have hvalue : 16 * (b.toNat / 16) + b.toNat % 16 = b.toNat := Nat.div_add_mod ..
  change (match hexValue (hexDigit (b.toNat / 16)), hexValue (hexDigit (b.toNat % 16)) with
    | some high, some low => some (UInt8.ofNat (16 * high + low), rest)
    | _, _ => none) = _
  rw [hexValue_hexDigit (by omega), hexValue_hexDigit (by omega)]
  dsimp only
  rw [hvalue, UInt8.ofNat_toNat]

theorem takeBytes_escape (bytes : List UInt8) (rest : List Char) :
    takeBytes bytes.length (bytes.flatMap escapeByte ++ rest) = some (bytes, rest) := by
  induction bytes with
  | nil => rfl
  | cons b bytes ih =>
    rw [List.flatMap_cons, List.append_assoc, List.length_cons, takeBytes, takeByte_escapeByte]
    dsimp only
    rw [ih]
    rfl

theorem sequenceLength_eq {b : UInt8} {n : ℕ} (h : b.toNat < 0x80 ∧ n = 1 ∨
    0xC0 ≤ b.toNat ∧ b.toNat < 0xE0 ∧ n = 2 ∨ 0xE0 ≤ b.toNat ∧ b.toNat < 0xF0 ∧ n = 3 ∨
    0xF0 ≤ b.toNat ∧ b.toNat < 0xF8 ∧ n = 4) : sequenceLength b = n := by
  unfold sequenceLength
  simp only [UInt8.lt_iff_toNat_lt, UInt8.reduceToNat]
  split_ifs <;> omega

theorem utf8EncodeChar_first (c : Char) : ∃ b bs, String.utf8EncodeChar c = b :: bs ∧
    sequenceLength b = (String.utf8EncodeChar c).length := by
  have hscalar := c.valid
  have hsmall : c.val.toNat < 0x110000 := by
    unfold UInt32.isValidChar Nat.isValidChar at hscalar
    omega
  have hbyte : ∀ n, n < 0x100 → (UInt8.ofNat n).toNat = n := by
    intro n hn
    rw [UInt8.toNat_ofNat', Nat.mod_eq_of_lt hn]
  unfold String.utf8EncodeChar
  dsimp only
  split_ifs with h1 h2 h3
  · exact ⟨_, _, rfl, sequenceLength_eq (Or.inl ⟨by rw [hbyte _ (by omega)]; omega, rfl⟩)⟩
  · refine ⟨_, _, rfl, sequenceLength_eq (Or.inr (Or.inl ?_))⟩
    rw [hbyte _ (by omega)]
    exact ⟨by omega, by omega, rfl⟩
  · refine ⟨_, _, rfl, sequenceLength_eq (Or.inr (Or.inr (Or.inl ?_)))⟩
    rw [hbyte _ (by omega)]
    exact ⟨by omega, by omega, rfl⟩
  · refine ⟨_, _, rfl, sequenceLength_eq (Or.inr (Or.inr (Or.inr ?_)))⟩
    rw [hbyte _ (by omega)]
    exact ⟨by omega, by omega, rfl⟩

theorem takeEscaped_escape (c : Char) (rest : List Char) :
    takeEscaped ((String.utf8EncodeChar c).flatMap escapeByte ++ rest) = some (c, rest) := by
  obtain ⟨b, bs, hbytes, hlen⟩ := utf8EncodeChar_first c
  have hfirst : takeByte ((String.utf8EncodeChar c).flatMap escapeByte ++ rest) =
      some (b, bs.flatMap escapeByte ++ rest) := by
    rw [hbytes, List.flatMap_cons, List.append_assoc, takeByte_escapeByte]
  have hall := takeBytes_escape (String.utf8EncodeChar c) rest
  have hchar := Utf8.decodeChar_append c []
  rw [List.append_nil] at hchar
  unfold takeEscaped
  rw [hfirst]
  dsimp only
  rw [hlen, hall]
  dsimp only
  rw [hchar]
  rfl

theorem encode_cons (safe : Char → Bool) (c : Char) (text : List Char) :
    encode safe (c :: text) = encodeChar safe c ++ encode safe text := rfl

section Texts
variable {safe : Char → Bool}

theorem decodeLoop_encode (hsafe : safe '%' = false) (text : List Char) {rounds : ℕ}
    (h : (encode safe text).length ≤ rounds) :
    decodeLoop rounds (encode safe text) = some text := by
  induction text generalizing rounds with
  | nil => cases rounds <;> rfl
  | cons c text ih =>
    rw [encode_cons, List.length_append] at h
    rw [encode_cons]
    by_cases hc : safe c = true
    · have hne : c ≠ '%' := by
        rintro rfl
        rw [hsafe] at hc
        cases hc
      have hself : encodeChar safe c = [c] := if_pos hc
      rw [hself] at h ⊢
      cases rounds with
      | zero => exact absurd h (by simp)
      | succ rounds =>
        rw [List.singleton_append, decodeLoop, if_neg hne, ih (by simp at h; omega)]
        rfl
    · have hescaped : encodeChar safe c = (String.utf8EncodeChar c).flatMap escapeByte :=
        if_neg hc
      rw [hescaped] at h ⊢
      have htake := takeEscaped_escape c (encode safe text)
      obtain ⟨b, bs, hbytes, -⟩ := utf8EncodeChar_first c
      rw [hbytes, List.flatMap_cons] at h htake ⊢
      cases rounds with
      | zero => exact absurd h (by simp [escapeByte])
      | succ rounds =>
        simp only [escapeByte, List.cons_append, List.nil_append] at h htake ⊢
        rw [decodeLoop, if_pos rfl, htake]
        dsimp only
        rw [ih (by simp at h; omega)]
        rfl

theorem decode_encode (hsafe : safe '%' = false) (text : List Char) :
    decode (encode safe text) = some text := decodeLoop_encode hsafe text (Nat.le_refl _)

theorem mem_escapeByte {c : Char} {b : UInt8} (h : c ∈ escapeByte b) :
    c = '%' ∨ ∃ n < 16, c = hexDigit n := by
  have hb := b.toNat_lt
  simp only [escapeByte, List.mem_cons, List.not_mem_nil, or_false] at h
  rcases h with rfl | rfl | rfl
  · exact Or.inl rfl
  · exact Or.inr ⟨_, by omega, rfl⟩
  · exact Or.inr ⟨_, by omega, rfl⟩

theorem mem_encode {c : Char} {text : List Char} (h : c ∈ encode safe text) :
    safe c = true ∨ c = '%' ∨ ∃ n < 16, c = hexDigit n := by
  obtain ⟨d, -, hd⟩ := List.mem_flatMap.mp h
  unfold encodeChar at hd
  split at hd
  · rename_i hsafe
    rw [List.mem_singleton.mp hd]
    exact Or.inl hsafe
  · obtain ⟨b, -, hb⟩ := List.mem_flatMap.mp hd
    exact Or.inr (mem_escapeByte hb)

end Texts

/-- A text with the ASCII characters of a set escaped. -/
def escapeAll (bad : Char → Bool) (text : List Char) : List Char :=
  text.flatMap fun c => if bad c then escapeByte (UInt8.ofNat c.toNat) else [c]

section Narrowing
variable {safe bad : Char → Bool}

theorem escapeAll_of_not_mem {text : List Char} (h : ∀ c ∈ text, bad c = false) :
    escapeAll bad text = text := by
  induction text with
  | nil => rfl
  | cons c text ih =>
    have hc : bad c = false := h c List.mem_cons_self
    have hrest := ih fun d hd => h d (List.mem_cons_of_mem c hd)
    unfold escapeAll at hrest ⊢
    rw [List.flatMap_cons, hrest, hc]
    rfl

theorem escapeAll_encode (hascii : ∀ c, bad c = true → c.toNat < 0x80)
    (hescapes : bad '%' = false ∧ ∀ n < 16, bad (hexDigit n) = false) (text : List Char) :
    escapeAll bad (encode safe text) = encode (fun c => safe c && !bad c) text := by
  unfold escapeAll encode
  rw [List.flatMap_assoc]
  congr 1
  funext c
  unfold encodeChar
  by_cases hsafe : safe c = true
  · rw [if_pos hsafe, List.flatMap_singleton]
    by_cases hbad : bad c = true
    · rw [if_pos hbad, if_neg (by simp [hbad]), Utf8.utf8EncodeChar_low (hascii c hbad),
        List.flatMap_singleton]
    · rw [if_neg hbad, if_pos (by simp [hsafe, hbad])]
  · rw [if_neg hsafe, if_neg (by simp [hsafe])]
    apply escapeAll_of_not_mem
    intro d hd
    obtain ⟨b, -, hb⟩ := List.mem_flatMap.mp hd
    rcases mem_escapeByte hb with rfl | ⟨n, hn, rfl⟩
    · exact hescapes.1
    · exact hescapes.2 n hn

end Narrowing

end Percent
