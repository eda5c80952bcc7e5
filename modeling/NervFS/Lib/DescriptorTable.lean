import Mathlib.Data.List.Basic
import Mathlib.Data.Nat.Notation

/-!
A table of small numbers for open objects, as a kernel keeps one for a process. A new
object gets the lowest number that is not in use, and a released number is free again.
-/
namespace DescriptorTable

variable {α : Type}

abbrev Table (α : Type) := List (Option α)

namespace Table

def get (t : Table α) (n : ℕ) : Option α := t[n]?.join

/-- The lowest number that is not in use. -/
def lowest : Table α → ℕ
  | [] => 0
  | none :: _ => 0
  | some _ :: t => lowest t + 1

/-- The table with a new object at the lowest number. -/
def alloc (a : α) : Table α → Table α
  | [] => [some a]
  | none :: t => some a :: t
  | some b :: t => some b :: alloc a t

def release (t : Table α) (n : ℕ) : Table α := t.set n none

@[simp] theorem get_nil (n : ℕ) : get ([] : Table α) n = none := rfl

@[simp] theorem get_cons_zero (o : Option α) (t : Table α) : get (o :: t) 0 = o := rfl

@[simp] theorem get_cons_succ (o : Option α) (t : Table α) (n : ℕ) :
    get (o :: t) (n + 1) = get t n := rfl

@[simp] theorem get_lowest (t : Table α) : get t (lowest t) = none := by
  induction t with
  | nil => rfl
  | cons o t ih =>
    cases o with
    | none => rfl
    | some a => exact ih

theorem lowest_le {t : Table α} {n : ℕ} (h : get t n = none) : lowest t ≤ n := by
  induction t generalizing n with
  | nil => exact Nat.zero_le n
  | cons o t ih =>
    cases o with
    | none => exact Nat.zero_le n
    | some a =>
      cases n with
      | zero => cases h
      | succ n => exact Nat.succ_le_succ (ih h)

theorem get_alloc (a : α) (t : Table α) (n : ℕ) :
    get (alloc a t) n = if n = lowest t then some a else get t n := by
  induction t generalizing n with
  | nil => cases n <;> simp [alloc, lowest]
  | cons o t ih =>
    cases o with
    | none => cases n <;> simp [alloc, lowest]
    | some b =>
      cases n with
      | zero => simp [alloc, lowest]
      | succ n => simp [alloc, lowest, ih n]

theorem get_release (t : Table α) (n m : ℕ) :
    get (release t n) m = if m = n then none else get t m := by
  unfold get release
  rw [List.getElem?_set]
  by_cases h : n = m
  · subst h
    rw [if_pos rfl, if_pos rfl]
    split <;> rfl
  · rw [if_neg h, if_neg (Ne.symm h)]

theorem lowest_map_some (as : List α) : lowest (as.map some) = as.length := by
  induction as with
  | nil => rfl
  | cons a as ih => exact congrArg (· + 1) ih

theorem alloc_map_some (a : α) (as : List α) : alloc a (as.map some) = (as ++ [a]).map some := by
  induction as with
  | nil => rfl
  | cons b as ih => exact congrArg (some b :: ·) ih

end Table

end DescriptorTable
