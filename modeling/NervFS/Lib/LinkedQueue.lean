import Mathlib.Data.List.Nodup
import Mathlib.Logic.Function.Basic
import Mathlib.Data.Nat.Notation

/-!
A queue as a singly linked list on a heap, with a pointer to its first and one to its last
node. It represents the list of the values along the `next` pointers; an append at the
tail and a removal at the head are those of the list.
-/
namespace LinkedQueue

variable {α : Type}

structure Node (α : Type) where
  val : α
  next : Option ℕ
  deriving DecidableEq

abbrev Heap (α : Type) := ℕ → Option (Node α)

structure Queue (α : Type) where
  heap : Heap α
  head : Option ℕ
  tail : Option ℕ

/-- The nodes from a pointer on, with their values. -/
inductive Chain (heap : Heap α) : Option ℕ → List ℕ → List α → Prop
  | nil : Chain heap none [] []
  | cons {a next as x xs} (ha : heap a = some ⟨x, next⟩) (h : Chain heap next as xs) :
      Chain heap (some a) (a :: as) (x :: xs)

structure Represents (q : Queue α) (as : List ℕ) (xs : List α) : Prop where
  chain : Chain q.heap q.head as xs
  nodup : as.Nodup
  tail : q.tail = as.getLast?

/-- Append a new node at a fresh address. -/
def Queue.enqueue (q : Queue α) (a : ℕ) (x : α) : Queue α :=
  let heap := Function.update q.heap a (some ⟨x, none⟩)
  match q.tail with
  | none => { heap := heap, head := some a, tail := some a }
  | some t =>
    { heap := Function.update heap t ((heap t).map fun node => { node with next := some a })
      head := q.head
      tail := some a }

/-- Unlink the first node, which stays on the heap; `none` when there is none. -/
def Queue.dequeue (q : Queue α) : Option (ℕ × α × Queue α) :=
  match q.head with
  | none => none
  | some a =>
    match q.heap a with
    | none => none
    | some node =>
      some (a, node.val,
        { q with head := node.next, tail := if node.next = none then none else q.tail })

def Queue.free (q : Queue α) (a : ℕ) : Queue α :=
  { q with heap := Function.update q.heap a none }

section Chains
variable {heap heap' : Heap α} {p : Option ℕ} {as : List ℕ} {xs : List α} {a : ℕ} {x : α}

theorem Chain.allocated (h : Chain heap p as xs) : ∀ a ∈ as, heap a ≠ none := by
  induction h with
  | nil => exact nofun
  | cons ha _ ih =>
    rintro b (_ | ⟨_, hb⟩)
    · rw [ha]
      exact nofun
    · exact ih b hb

theorem Chain.congr (h : Chain heap p as xs) (heq : ∀ a ∈ as, heap' a = heap a) :
    Chain heap' p as xs := by
  induction h with
  | nil => exact .nil
  | cons ha _ ih =>
    refine .cons ?_ (ih fun b hb => heq b (List.mem_cons_of_mem _ hb))
    rw [heq _ List.mem_cons_self]
    exact ha

theorem Chain.snoc (h : Chain heap p as xs) (hnd : as.Nodup) (hfresh : a ∉ as) {t : ℕ}
    (ht : as.getLast? = some t) (hnew : heap' a = some ⟨x, none⟩)
    (hlast : heap' t = (heap t).map fun node => { node with next := some a })
    (hold : ∀ b ∈ as, b ≠ t → heap' b = heap b) :
    Chain heap' p (as ++ [a]) (xs ++ [x]) := by
  induction h with
  | nil => cases ht
  | @cons b next bs y ys hb hc ih =>
    obtain ⟨hb', hnd'⟩ := List.nodup_cons.mp hnd
    cases hc with
    | nil =>
      obtain rfl : b = t := by simpa using ht
      refine .cons (a := b) ?_ (.cons hnew .nil)
      rw [hlast, hb]
      rfl
    | @cons c next' cs z zs hcn hrest =>
      have ht' : (c :: cs).getLast? = some t := by simpa using ht
      have hbt : b ≠ t := by
        rintro rfl
        exact hb' (List.mem_of_getLast? ht')
      refine .cons ?_ (ih hnd' (fun hm => hfresh (List.mem_cons_of_mem _ hm)) ht'
        fun d hd => hold d (List.mem_cons_of_mem _ hd))
      rw [hold b List.mem_cons_self hbt]
      exact hb

end Chains

section Queues
variable {q : Queue α} {as : List ℕ} {xs : List α} {a : ℕ} {x : α}

theorem Represents.length_eq (h : Represents q as xs) : as.length = xs.length := by
  have hc := h.chain
  generalize q.head = p at hc
  clear h
  induction hc with
  | nil => rfl
  | cons _ _ ih => simp [ih]

theorem Represents.head_eq (h : Represents q as xs) : q.head = as.head? := by
  have hc := h.chain
  generalize q.head = p at hc ⊢
  cases hc <;> rfl

/-- The pointers are null together, exactly when the queue is empty. -/
theorem Represents.head_none_iff (h : Represents q as xs) : q.head = none ↔ as = [] := by
  rw [h.head_eq, List.head?_eq_none_iff]

theorem Represents.tail_none_iff (h : Represents q as xs) : q.tail = none ↔ as = [] := by
  rw [h.tail, List.getLast?_eq_none_iff]

theorem Represents.enqueue (h : Represents q as xs) (hfresh : q.heap a = none) (x : α) :
    Represents (q.enqueue a x) (as ++ [a]) (xs ++ [x]) := by
  have hnot : a ∉ as := fun hm => h.chain.allocated a hm hfresh
  have hnd : (as ++ [a]).Nodup :=
    List.nodup_append.mpr ⟨h.nodup, List.nodup_singleton a, fun b hb c hc => by
      rintro rfl
      exact hnot (List.mem_singleton.mp hc ▸ hb)⟩
  unfold Queue.enqueue
  cases ht : q.tail with
  | none =>
    obtain rfl := h.tail_none_iff.mp ht
    have hxs : xs = [] := List.eq_nil_of_length_eq_zero h.length_eq.symm
    subst hxs
    exact ⟨.cons (Function.update_self ..) .nil, hnd, rfl⟩
  | some t =>
    have hlast : as.getLast? = some t := h.tail ▸ ht
    have hta : a ≠ t := by
      rintro rfl
      exact hnot (List.mem_of_getLast? hlast)
    refine ⟨h.chain.snoc h.nodup hnot hlast ?_ ?_ fun b hb hbt => ?_, hnd, by simp⟩
    · dsimp only
      rw [Function.update_of_ne hta, Function.update_self]
    · dsimp only
      rw [Function.update_self, Function.update_of_ne hta.symm]
    · have hba : b ≠ a := by
        rintro rfl
        exact hnot hb
      dsimp only
      rw [Function.update_of_ne hbt, Function.update_of_ne hba]

theorem Represents.dequeue_nil (h : Represents q [] xs) : q.dequeue = none := by
  unfold Queue.dequeue
  rw [h.head_none_iff.mpr rfl]

theorem Represents.dequeue (h : Represents q (a :: as) (x :: xs)) :
    ∃ q', q.dequeue = some (a, x, q') ∧ q'.heap = q.heap ∧ Represents q' as xs := by
  have hc := h.chain
  have hhead : q.head = some a := h.head_eq
  rw [hhead] at hc
  cases hc with
  | @cons _ next _ _ _ ha hrest =>
    unfold Queue.dequeue
    rw [hhead]
    simp only [ha]
    refine ⟨_, rfl, rfl, hrest, (List.nodup_cons.mp h.nodup).2, ?_⟩
    cases hrest with
    | nil => rfl
    | cons hb hrest' =>
      simp only [reduceCtorEq, if_false]
      rw [h.tail]
      simp

theorem Represents.free (h : Represents q as xs) (hnot : a ∉ as) :
    Represents (q.free a) as xs := by
  refine ⟨h.chain.congr fun b hb => ?_, h.nodup, h.tail⟩
  refine Function.update_of_ne ?_ ..
  rintro rfl
  exact hnot hb

theorem enqueue_heap (h : Represents q as xs) {b : ℕ} (hb : b ≠ a) (hnot : b ∉ as) :
    (q.enqueue a x).heap b = q.heap b := by
  unfold Queue.enqueue
  cases ht : q.tail with
  | none => exact Function.update_of_ne hb ..
  | some t =>
    have hbt : b ≠ t := by
      rintro rfl
      exact hnot (List.mem_of_getLast? (h.tail ▸ ht))
    dsimp only
    rw [Function.update_of_ne hbt, Function.update_of_ne hb]

end Queues

end LinkedQueue
