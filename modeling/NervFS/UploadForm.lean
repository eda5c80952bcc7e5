import NervFS.Lib.Utf16
import NervFS.FileOps

/-!
The check that the upload form makes of a name before it sends anything, against the
resolver of the server. The form counts UTF-16 units and the server UTF-8 bytes, and a
name has no more of the first than of the second, so what the server accepts the form
lets through. It also lets through a name that the server refuses when nothing but its
length in bytes is wrong with it.
-/
namespace NervFS.UploadForm

open Calls FileOps

/-- `name` is a string of the browser, with the length that the browser gives it. -/
def isValidName (name : List UInt16) : Bool :=
  0 < name.length &&
  name.length ≤ 255 &&
  !name.contains 0x2F &&
  name != [0x2E] &&
  name != [0x2E, 0x2E] &&
  !name.contains 0

/-- What both checks ask of the characters of a name. -/
structure Plain (name : List Char) : Prop where
  nonempty : name ≠ []
  no_slash : '/' ∉ name
  not_dot : name ≠ ['.']
  not_dotDot : name ≠ ['.', '.']
  no_nul : '\x00' ∉ name

theorem isValidName_iff (name : List Char) :
    isValidName (Utf16.encode name) = true ↔
      Plain name ∧ (Utf16.encode name).length ≤ nervfsMaxNameLen := by
  have hslash : (0x2F : UInt16) ∈ Utf16.encode name ↔ '/' ∈ name :=
    Utf16.mem_encode_iff (c := '/') (by decide)
  have hnul : (0 : UInt16) ∈ Utf16.encode name ↔ '\x00' ∈ name :=
    Utf16.mem_encode_iff (c := '\x00') (by decide)
  have hempty : Utf16.encode name = Utf16.encode [] ↔ name = [] :=
    Utf16.encode_injective.eq_iff
  have hdot : Utf16.encode name = Utf16.encode ['.'] ↔ name = ['.'] :=
    Utf16.encode_injective.eq_iff
  have hdotDot : Utf16.encode name = Utf16.encode ['.', '.'] ↔ name = ['.', '.'] :=
    Utf16.encode_injective.eq_iff
  change _ = [] ↔ _ at hempty
  change _ = [0x2E] ↔ _ at hdot
  change _ = [0x2E, 0x2E] ↔ _ at hdotDot
  unfold isValidName
  simp only [Bool.and_eq_true, decide_eq_true_eq, Bool.not_eq_true', bne_iff_ne, ne_eq,
    List.contains_eq_mem, decide_eq_false_iff_not, List.length_pos_iff, hslash, hnul, hempty,
    hdot, hdotDot]
  constructor
  · rintro ⟨⟨⟨⟨⟨h1, h2⟩, h3⟩, h4⟩, h5⟩, h6⟩
    exact ⟨⟨h1, h3, h4, h5, h6⟩, h2⟩
  · rintro ⟨⟨h1, h3, h4, h5, h6⟩, h2⟩
    exact ⟨⟨⟨⟨⟨h1, h2⟩, h3⟩, h4⟩, h5⟩, h6⟩

theorem resolves_iff {root : Bytes} (hroot : root.length + 1 + nervfsMaxNameLen < pathMax)
    (name : List Char) :
    (safeResolvePath root (Utf8.encode name) pathMax).isSome = true ↔
      Plain name ∧ (Utf8.encode name).length ≤ nervfsMaxNameLen := by
  have hslash : slash ∈ Utf8.encode name ↔ '/' ∈ name :=
    Utf8.mem_encode_iff (c := '/') (by decide)
  have hnul : (0 : UInt8) ∈ Utf8.encode name ↔ '\x00' ∈ name :=
    Utf8.mem_encode_iff (c := '\x00') (by decide)
  have hempty : Utf8.encode name = Utf8.encode [] ↔ name = [] :=
    Utf8.encode_injective.eq_iff
  have hdot : Utf8.encode name = Utf8.encode ['.'] ↔ name = ['.'] :=
    Utf8.encode_injective.eq_iff
  have hdotDot : Utf8.encode name = Utf8.encode ['.', '.'] ↔ name = ['.', '.'] :=
    Utf8.encode_injective.eq_iff
  change _ = [] ↔ _ at hempty
  change _ = dotName ↔ _ at hdot
  change _ = dotDotName ↔ _ at hdotDot
  rw [safeResolvePath_isSome]
  constructor
  · intro h
    refine ⟨⟨?_, ?_, ?_, ?_, ?_⟩, h.short⟩
    · exact fun hc => List.length_pos_iff.mp h.nonempty (hempty.mpr hc)
    · exact fun hc => h.no_slash (hslash.mpr hc)
    · exact fun hc => h.not_dot (hdot.mpr hc)
    · exact fun hc => h.not_dotDot (hdotDot.mpr hc)
    · exact fun hc => h.no_nul (hnul.mpr hc)
  · rintro ⟨h, hshort⟩
    refine ⟨?_, hshort, ?_, ?_, ?_, ?_, by omega⟩
    · exact List.length_pos_iff.mpr fun hc => h.nonempty (hempty.mp hc)
    · exact fun hc => h.no_nul (hnul.mp hc)
    · exact fun hc => h.no_slash (hslash.mp hc)
    · exact fun hc => h.not_dot (hdot.mp hc)
    · exact fun hc => h.not_dotDot (hdotDot.mp hc)

/-- The form does not hold back a name that the server would accept. -/
theorem isValidName_of_resolves {root : Bytes}
    (hroot : root.length + 1 + nervfsMaxNameLen < pathMax) {name : List Char}
    (h : (safeResolvePath root (Utf8.encode name) pathMax).isSome = true) :
    isValidName (Utf16.encode name) = true := by
  obtain ⟨hplain, hshort⟩ := (resolves_iff hroot name).mp h
  exact (isValidName_iff name).mpr ⟨hplain, (Utf16.encode_length_le name).trans hshort⟩

/-- The two checks agree on a name exactly when both of its lengths are on one side of the
limit, or a character in it settles the matter. -/
theorem isValidName_agrees_iff {root : Bytes}
    (hroot : root.length + 1 + nervfsMaxNameLen < pathMax) (name : List Char) :
    (isValidName (Utf16.encode name) = true ↔
      (safeResolvePath root (Utf8.encode name) pathMax).isSome = true) ↔
    '/' ∈ name ∨ '\x00' ∈ name ∨ (Utf8.encode name).length ≤ nervfsMaxNameLen ∨
      nervfsMaxNameLen < (Utf16.encode name).length := by
  have hle := Utf16.encode_length_le name
  have hresolves := resolves_iff hroot name
  rw [isValidName_iff, hresolves]
  constructor
  · intro h
    by_contra hout
    obtain ⟨hslash, hout⟩ := not_or.mp hout
    obtain ⟨hnul, hout⟩ := not_or.mp hout
    obtain ⟨hlong, hunits⟩ := not_or.mp hout
    -- the names that are refused for what they are have no more than two bytes
    have hplain : Plain name := by
      refine ⟨?_, hslash, ?_, ?_, hnul⟩
      · rintro rfl
        exact hlong (by decide)
      · rintro rfl
        exact hlong (by decide)
      · rintro rfl
        exact hlong (by decide)
    exact hlong (h.mp ⟨hplain, Nat.not_lt.mp hunits⟩).2
  · rintro (hslash | hnul | hshort | hlong)
    · exact ⟨fun h => absurd hslash h.1.no_slash, fun h => absurd hslash h.1.no_slash⟩
    · exact ⟨fun h => absurd hnul h.1.no_nul, fun h => absurd hnul h.1.no_nul⟩
    · exact ⟨fun h => ⟨h.1, hshort⟩, fun h => ⟨h.1, hle.trans hshort⟩⟩
    · exact ⟨fun h => absurd h.2 (Nat.not_le.mpr hlong),
        fun h => absurd (hle.trans h.2) (Nat.not_le.mpr hlong)⟩

def sampleRoot : Bytes := [0x2F, 0x73]

theorem isValidName_agrees_sample :
    isValidName (Utf16.encode ['é']) = true ↔
      (safeResolvePath sampleRoot (Utf8.encode ['é']) pathMax).isSome = true :=
  (isValidName_agrees_iff (by decide) ['é']).mpr (Or.inr (Or.inr (Or.inl (by decide))))

/-- A name of 128 characters and 256 bytes. -/
def longName : List Char := List.replicate 128 'é'

theorem isValidName_disagrees :
    sampleRoot.length + 1 + nervfsMaxNameLen < pathMax ∧
    ¬ (isValidName (Utf16.encode longName) = true ↔
      (safeResolvePath sampleRoot (Utf8.encode longName) pathMax).isSome = true) := by
  have hform : isValidName (Utf16.encode longName) = true := by decide +kernel
  have hserver : ¬ (safeResolvePath sampleRoot (Utf8.encode longName) pathMax).isSome = true := by
    decide +kernel
  exact ⟨by decide, fun h => hserver (h.mp hform)⟩

end NervFS.UploadForm
