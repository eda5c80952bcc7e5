import Mathlib.Data.List.Basic
import Mathlib.Data.Nat.Notation

/-!
Codes whose words tell where they end. A reader takes one word off the front of a string
and gives the rest back; repeated, it takes a given number of words, and finds them exactly
when the string starts with them.
-/
namespace PrefixCodes

variable {α σ : Type}

/-- The words that encode the admissible values, and the reader that recognises them. -/
structure PrefixCode (α σ : Type) where
  admissible : α → Prop
  encode : α → List σ
  take : List σ → Option (α × List σ)
  take_iff : ∀ bits a rest,
    take bits = some (a, rest) ↔ admissible a ∧ bits = encode a ++ rest

namespace PrefixCode
variable (code : PrefixCode α σ)

/-- Read the given number of words. -/
def takeMany : ℕ → List σ → Option (List α × List σ)
  | 0, bits => some ([], bits)
  | n + 1, bits =>
    match code.take bits with
    | none => none
    | some (a, bits) => (takeMany n bits).map fun p => (a :: p.1, p.2)

/-- The string starts with the words of these values. -/
structure Starts (values : List α) (bits rest : List σ) : Prop where
  admissible : ∀ a ∈ values, code.admissible a
  split : bits = values.flatMap code.encode ++ rest

theorem starts_nil (bits rest : List σ) : code.Starts [] bits rest ↔ bits = rest := by
  constructor
  · intro h
    exact h.split
  · intro h
    exact ⟨fun a ha => absurd ha List.not_mem_nil, h⟩

theorem starts_cons (a : α) (values : List α) (bits rest : List σ) :
    code.Starts (a :: values) bits rest ↔
      ∃ left, code.take bits = some (a, left) ∧ code.Starts values left rest := by
  constructor
  · intro h
    have hsplit := h.split
    rw [List.flatMap_cons, List.append_assoc] at hsplit
    refine ⟨values.flatMap code.encode ++ rest, ?_, ?_⟩
    · exact (code.take_iff ..).mpr ⟨h.admissible a List.mem_cons_self, hsplit⟩
    · exact ⟨fun b hb => h.admissible b (List.mem_cons_of_mem _ hb), rfl⟩
  · intro h
    obtain ⟨left, htake, hrest⟩ := h
    obtain ⟨ha, hbits⟩ := (code.take_iff ..).mp htake
    constructor
    · intro b hb
      rcases List.mem_cons.mp hb with hb | hb
      · rw [hb]
        exact ha
      · exact hrest.admissible b hb
    · rw [hbits, hrest.split, List.flatMap_cons, List.append_assoc]

theorem takeMany_iff (n : ℕ) (bits : List σ) (values : List α) (rest : List σ) :
    code.takeMany n bits = some (values, rest) ↔
      values.length = n ∧ code.Starts values bits rest := by
  induction n generalizing bits values with
  | zero =>
    unfold takeMany
    constructor
    · intro h
      cases h
      exact ⟨rfl, (code.starts_nil ..).mpr rfl⟩
    · intro h
      have hnil := List.eq_nil_of_length_eq_zero h.1
      subst hnil
      rw [(code.starts_nil ..).mp h.2]
  | succ n ih =>
    unfold takeMany
    cases values with
    | nil =>
      constructor
      · intro h
        cases htake : code.take bits with
        | none =>
          rw [htake] at h
          cases h
        | some p =>
          rw [htake] at h
          obtain ⟨q, -, hq⟩ := Option.map_eq_some_iff.mp h
          cases hq
      · intro h
        cases h.1
    | cons a values =>
      rw [code.starts_cons, List.length_cons]
      cases htake : code.take bits with
      | none =>
        constructor
        · intro h
          cases h
        · intro h
          obtain ⟨-, left, h, -⟩ := h
          cases h
      | some p =>
        dsimp only
        rw [Option.map_eq_some_iff]
        constructor
        · intro h
          obtain ⟨q, hq, heq⟩ := h
          cases heq
          obtain ⟨hlen, hstarts⟩ := (ih ..).mp hq
          exact ⟨congrArg Nat.succ hlen, _, rfl, hstarts⟩
        · intro h
          obtain ⟨hlen, left, heq, hstarts⟩ := h
          cases heq
          exact ⟨_, (ih ..).mpr ⟨Nat.succ.inj hlen, hstarts⟩, rfl⟩

end PrefixCode

end PrefixCodes
