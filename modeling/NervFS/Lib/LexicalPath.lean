import Mathlib.Data.List.Basic
import Mathlib.Data.Nat.Notation

/-!
Paths as text, and what they name when only their text counts: empty components and the
component for the directory itself are skipped, the one for the parent directory drops
the component before it.
-/
namespace LexicalPath

variable {α : Type} [DecidableEq α]

/-- The separator and the two components with a meaning of their own. -/
structure Syntax (α : Type) where
  sep : α
  here : List α
  parent : List α

section Resolution
variable (syn : Syntax α)

/-- A component that names an entry of a directory. -/
structure Plain (c : List α) : Prop where
  nonempty : c ≠ []
  no_sep : syn.sep ∉ c
  not_here : c ≠ syn.here
  not_parent : c ≠ syn.parent

def components (path : List α) : List (List α) := (path.splitOn syn.sep).filter (· ≠ [])

/-- The directory reached from `dir` by one component. -/
def walk (dir : List (List α)) (c : List α) : List (List α) :=
  if c = syn.here then dir else if c = syn.parent then dir.dropLast else dir ++ [c]

/-- The entry that an absolute path names, from the top directory down. -/
def resolve (path : List α) : List (List α) := (components syn path).foldl (walk syn) []

/-- The path of an entry, with one separator before each component. -/
def absolute (cs : List (List α)) : List α :=
  if cs = [] then [syn.sep] else cs.flatMap (syn.sep :: ·)

/-- An absolute path without anything to resolve. -/
def Normalised (path : List α) : Prop := ∃ cs, (∀ c ∈ cs, Plain syn c) ∧ path = absolute syn cs

variable {syn} {c : List α} {cs : List (List α)}

theorem components_nil : components syn [] = [] := by
  simp [components]

theorem components_append (path rest : List α) :
    components syn (path ++ syn.sep :: rest) = components syn path ++ components syn rest := by
  unfold components
  rw [List.splitOn_append_cons_of_beq _ _ (beq_self_eq_true syn.sep), List.filter_append]

theorem components_plain (h : Plain syn c) : components syn c = [c] := by
  unfold components
  rw [List.splitOn_eq_singleton h.no_sep]
  exact List.filter_cons_of_pos (decide_eq_true h.nonempty)

theorem components_joined (hc : Plain syn c) (h : ∀ c ∈ cs, Plain syn c) :
    components syn (c ++ cs.flatMap (syn.sep :: ·)) = c :: cs := by
  induction cs generalizing c with
  | nil =>
    rw [List.flatMap_nil, List.append_nil]
    exact components_plain hc
  | cons d cs ih =>
    have hd : Plain syn d := h d List.mem_cons_self
    have hcs : ∀ c ∈ cs, Plain syn c := fun e he => h e (List.mem_cons_of_mem d he)
    rw [List.flatMap_cons, List.cons_append, components_append, components_plain hc, ih hd hcs]
    rfl

theorem components_absolute (h : ∀ c ∈ cs, Plain syn c) :
    components syn (absolute syn cs) = cs := by
  cases cs with
  | nil => exact components_append [] []
  | cons c cs =>
    have hc : Plain syn c := h c List.mem_cons_self
    have hcs : ∀ c ∈ cs, Plain syn c := fun d hd => h d (List.mem_cons_of_mem c hd)
    change components syn ([] ++ syn.sep :: (c ++ cs.flatMap (syn.sep :: ·))) = _
    rw [components_append, components_nil, List.nil_append, components_joined hc hcs]

theorem walk_plain (hc : Plain syn c) (dir : List (List α)) : walk syn dir c = dir ++ [c] := by
  unfold walk
  rw [if_neg hc.not_here, if_neg hc.not_parent]

theorem foldl_walk (h : ∀ c ∈ cs, Plain syn c) (dir : List (List α)) :
    cs.foldl (walk syn) dir = dir ++ cs := by
  induction cs generalizing dir with
  | nil => exact (List.append_nil dir).symm
  | cons c cs ih =>
    have hc : Plain syn c := h c List.mem_cons_self
    have hcs : ∀ c ∈ cs, Plain syn c := fun d hd => h d (List.mem_cons_of_mem c hd)
    rw [List.foldl_cons, walk_plain hc, ih hcs, List.append_assoc, List.singleton_append]

theorem resolve_absolute (h : ∀ c ∈ cs, Plain syn c) : resolve syn (absolute syn cs) = cs := by
  unfold resolve
  rw [components_absolute h, foldl_walk h, List.nil_append]

/-- A plain component after a separator names a child of the directory, whatever the text
of the path to the directory is. -/
theorem resolve_child (path : List α) (hc : Plain syn c) :
    resolve syn (path ++ syn.sep :: c) = resolve syn path ++ [c] := by
  unfold resolve
  rw [components_append, components_plain hc, List.foldl_append, List.foldl_cons,
    walk_plain hc, List.foldl_nil]

end Resolution

end LexicalPath
