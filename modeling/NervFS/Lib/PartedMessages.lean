import Mathlib.Data.List.Infix
import Mathlib.Data.Nat.Notation

/-!
A message that is sent in parts, each of which may break off. What goes over the wire is a
prefix of the message when no part follows one that broke off, unless what follows happens
to repeat what is missing.
-/
namespace PartedMessages

variable {α : Type}

/-- A part of a message, and how many of its symbols got through. -/
abbrev Fragment (α : Type) := List α × ℕ

/-- The message that was meant. -/
def whole (parts : List (Fragment α)) : List α := parts.flatMap Prod.fst

/-- What got through. -/
def wire (parts : List (Fragment α)) : List α := parts.flatMap fun p => p.1.take p.2

/-- Nothing got through behind a gap but symbols that close it. -/
def Gapless : List (Fragment α) → Prop
  | [] => True
  | (p, n) :: rest =>
    (p.length ≤ n ∧ Gapless rest) ∨ (n < p.length ∧ wire rest <+: p.drop n ++ whole rest)

theorem wire_prefix_iff (parts : List (Fragment α)) :
    wire parts <+: whole parts ↔ Gapless parts := by
  induction parts with
  | nil => exact iff_of_true (List.prefix_refl _) trivial
  | cons part rest ih =>
    obtain ⟨p, n⟩ := part
    have hwire : wire ((p, n) :: rest) = p.take n ++ wire rest := rfl
    have hwhole : whole ((p, n) :: rest) = p.take n ++ (p.drop n ++ whole rest) := by
      rw [← List.append_assoc, List.take_append_drop]
      rfl
    rw [hwire, hwhole, List.prefix_append_right_inj]
    by_cases hn : p.length ≤ n
    · rw [List.drop_eq_nil_of_le hn, List.nil_append, ih]
      constructor
      · intro h
        exact Or.inl ⟨hn, h⟩
      · intro h
        rcases h with h | h
        · exact h.2
        · omega
    · constructor
      · intro h
        exact Or.inr ⟨by omega, h⟩
      · intro h
        rcases h with h | h
        · omega
        · exact h.2

end PartedMessages
