import NervFS.Lib.Programs
import NervFS.Lib.Transitions
import Mathlib.Data.Fintype.Basic
import Mathlib.Data.Finset.Basic
import Mathlib.Logic.Function.Basic

/-!
Threads over a store with one component for each key. A thread brackets its accesses
to one key by a shared or an exclusive hold of that key, and everything else it does
concerns its own state only. Then any interleaving has the results and the final
store of running the threads one at a time in the order of their acquisitions.
The invariant predicts, for a thread inside its section, what the rest of its
program will do: exactly what the serial run has already recorded for it.
-/
namespace KeyedStore

open Programs Transitions

inductive Mode
  | shared
  | exclusive
  deriving DecidableEq

/-- What a call does to the store and to the holds on its keys. -/
inductive Role (K : Type)
  | own
  | acquire (k : K) (m : Mode)
  | release (k : K) (m : Mode)
  | access (k : K) (m : Mode)
  | other

/-- What the calls of a program do; `valid` marks the keys that may be acquired. -/
structure Semantics (E : Type) (R : E → Type) (K V L : Type) where
  role : E → Role K
  valid : K → Prop
  own : (e : E) → L → R e × L
  touch : (e : E) → V → L → R e × V × L
  replies : (e : E) → R e → Prop
  own_replies : ∀ e l, replies e (own e l).1
  touch_replies : ∀ e v l, replies e (touch e v l).1
  touch_shared : ∀ e k v l, role e = .access k .shared → (touch e v l).2.1 = v

inductive Phase (K : Type)
  | before
  | inside (k : K) (m : Mode)
  | after

variable {E : Type} {R : E → Type} {K V L T α : Type}

namespace Semantics
variable (M : Semantics E R K V L)

/-- The calls of a thread that runs alone: its holds never make it wait. -/
def handle [DecidableEq K] (e : E) (s : (K → V) × L) : Option (R e × (K → V) × L) :=
  match M.role e with
  | .access k _ =>
    some ((M.touch e (s.1 k) s.2).1, Function.update s.1 k (M.touch e (s.1 k) s.2).2.1,
      (M.touch e (s.1 k) s.2).2.2)
  | .other => none
  | _ => some ((M.own e s.2).1, s.1, (M.own e s.2).2)

/-- The phase after a call. -/
def phaseAfter (c : Phase K) (e : E) : Phase K :=
  match c, M.role e with
  | .before, .acquire k m => .inside k m
  | .inside _ _, .release _ _ => .after
  | c, _ => c

/-- One section: acquire a valid key, access only that key, and write to it only under an
exclusive hold, then release it. -/
def sections : Discipline E R (Phase K) where
  admits c e :=
    match c, M.role e with
    | _, .own => True
    | .before, .acquire k _ => M.valid k
    | .inside k m, .release k' m' => k' = k ∧ m' = m
    | .inside k m, .access k' m' => k' = k ∧ (m' = .exclusive → m = .exclusive)
    | _, _ => False
  replies := M.replies
  next c e _ := M.phaseAfter c e

def Sectioned (c : Phase K) (p : Program E R α) : Prop :=
  Obeys M.sections (fun c _ => ∀ k m, c ≠ .inside k m) c p

variable {M}

theorem handle_access [DecidableEq K] {e : E} {k : K} {m : Mode} (h : M.role e = .access k m)
    (σ : K → V) (l : L) :
    M.handle e (σ, l) = some ((M.touch e (σ k) l).1,
      Function.update σ k (M.touch e (σ k) l).2.1, (M.touch e (σ k) l).2.2) := by
  simp only [handle, h]

theorem phaseAfter_acquire {e : E} {k : K} {m : Mode} (h : M.role e = .acquire k m) :
    M.phaseAfter .before e = .inside k m := by
  simp only [phaseAfter, h]

theorem phaseAfter_release {e : E} {k k' : K} {m m' : Mode} (h : M.role e = .release k m) :
    M.phaseAfter (.inside k' m') e = .after := by
  simp only [phaseAfter, h]

/-- Only acquisitions and releases move a thread to another phase. -/
theorem phaseAfter_same {c : Phase K} {e : E} (ha : ∀ k m, M.role e ≠ .acquire k m)
    (hr : ∀ k m, M.role e ≠ .release k m) : M.phaseAfter c e = c := by
  unfold phaseAfter
  split
  · next h => exact absurd h (ha _ _)
  · next h => exact absurd h (hr _ _)
  · rfl

theorem phaseAfter_inside (k : K) (m : Mode) (e : E) :
    M.phaseAfter (.inside k m) e = .inside k m ∨ M.phaseAfter (.inside k m) e = .after := by
  cases hr : M.role e with
  | release k' m' => exact Or.inr (phaseAfter_release hr)
  | _ => exact Or.inl (by simp only [phaseAfter, hr])

/-- The roles whose calls leave the store alone. -/
def Idle (r : Role K) : Prop := (∀ k m, r ≠ .access k m) ∧ r ≠ .other

theorem handle_idle [DecidableEq K] {e : E} (h : Idle (M.role e)) (σ : K → V) (l : L) :
    M.handle e (σ, l) = some ((M.own e l).1, σ, (M.own e l).2) := by
  unfold handle
  split
  · next k m hr => exact absurd hr (h.1 k m)
  · next hr => exact absurd hr h.2
  · rfl

theorem idle_own {e : E} (h : M.role e = .own) : Idle (M.role e) := by
  simp [Idle, h]

theorem idle_acquire {e : E} {k : K} {m : Mode} (h : M.role e = .acquire k m) :
    Idle (M.role e) := by simp [Idle, h]

theorem idle_release {e : E} {k : K} {m : Mode} (h : M.role e = .release k m) :
    Idle (M.role e) := by simp [Idle, h]

theorem run_idle [DecidableEq K] {e : E} {k : R e → Program E R α} (h : Idle (M.role e))
    (σ : K → V) (l : L) :
    (Program.call e k).run M.handle (σ, l) =
      (k (M.own e l).1).run M.handle (σ, (M.own e l).2) :=
  Program.run_call_of (handle_idle h σ l)

theorem of_handle_access [DecidableEq K] {e : E} {k : K} {m : Mode} (h : M.role e = .access k m)
    {σ σ' : K → V} {l l' : L} {r : R e} (hh : M.handle e (σ, l) = some (r, σ', l')) :
    (M.touch e (σ k) l).1 = r ∧ Function.update σ k (M.touch e (σ k) l).2.1 = σ' ∧
      (M.touch e (σ k) l).2.2 = l' := by
  rw [handle_access h] at hh
  simpa using hh

theorem of_handle_idle [DecidableEq K] {e : E} (h : Idle (M.role e)) {σ σ' : K → V} {l l' : L}
    {r : R e} (hh : M.handle e (σ, l) = some (r, σ', l')) :
    (M.own e l).1 = r ∧ σ = σ' ∧ (M.own e l).2 = l' := by
  rw [handle_idle h] at hh
  simpa using hh

/-- A call that leaves the store alone does the same from any store. -/
theorem handle_idle_any [DecidableEq K] {e : E} (h : Idle (M.role e)) {σ σ' : K → V} {l l' : L}
    {r : R e} (hh : M.handle e (σ, l) = some (r, σ', l')) :
    σ' = σ ∧ ∀ τ, M.handle e (τ, l) = some (r, τ, l') := by
  obtain ⟨rfl, rfl, rfl⟩ := of_handle_idle h hh
  exact ⟨rfl, fun τ => handle_idle h τ l⟩

theorem handle_replies [DecidableEq K] {e : E} {σ σ' : K → V} {l l' : L} {r : R e}
    (h : M.handle e (σ, l) = some (r, σ', l')) : M.replies e r := by
  unfold handle at h
  split at h
  · cases h
    exact M.touch_replies ..
  · cases h
  · cases h
    exact M.own_replies ..

theorem wp_idle [DecidableEq K] {e : E} {f : R e → Program E R α} {Q : α → (K → V) × L → Prop}
    {σ : K → V} {l : L} (hr : Idle (M.role e))
    (h : (f (M.own e l).1).wp M.handle Q (σ, (M.own e l).2)) :
    (Program.perform e >>= f).wp M.handle Q (σ, l) :=
  Program.wp_call (handle_idle hr σ l) h

theorem wp_access [DecidableEq K] {e : E} {k : K} {m : Mode} {f : R e → Program E R α}
    {Q : α → (K → V) × L → Prop} {σ : K → V} {l : L} (hr : M.role e = .access k m)
    (h : (f (M.touch e (σ k) l).1).wp M.handle Q
      (Function.update σ k (M.touch e (σ k) l).2.1, (M.touch e (σ k) l).2.2)) :
    (Program.perform e >>= f).wp M.handle Q (σ, l) :=
  Program.wp_call (handle_access hr σ l) h

namespace Sectioned
variable {e : E} {k : R e → Program E R α} {key : K} {m m' : Mode} {c : Phase K}

theorem own (hr : M.role e = .own) (h : ∀ r, M.replies e r → M.Sectioned c (k r)) :
    M.Sectioned c (Program.perform e >>= k) := by
  have hnext : ∀ r, M.sections.next c e r = c := fun r => by simp only [sections, phaseAfter, hr]
  refine ⟨by simp only [sections, phaseAfter, hr], fun r hrep => ?_⟩
  rw [hnext]
  exact h r hrep

theorem acquire (hr : M.role e = .acquire key m) (hv : M.valid key)
    (h : ∀ r, M.Sectioned (.inside key m) (k r)) :
    M.Sectioned .before (Program.perform e >>= k) := by
  have hnext : ∀ r, M.sections.next .before e r = .inside key m :=
    fun r => by simp only [sections, phaseAfter, hr]
  refine ⟨by simp only [sections, phaseAfter, hr]; exact hv, fun r _ => ?_⟩
  rw [hnext]
  exact h r

theorem release (hr : M.role e = .release key m) (h : ∀ r, M.Sectioned .after (k r)) :
    M.Sectioned (.inside key m) (Program.perform e >>= k) := by
  have hnext : ∀ r, M.sections.next (.inside key m) e r = .after :=
    fun r => by simp only [sections, phaseAfter, hr]
  refine ⟨by simp only [sections, phaseAfter, hr, and_self], fun r _ => ?_⟩
  rw [hnext]
  exact h r

theorem access (hr : M.role e = .access key m') (hm : m' = .exclusive → m = .exclusive)
    (h : ∀ r, M.replies e r → M.Sectioned (.inside key m) (k r)) :
    M.Sectioned (.inside key m) (Program.perform e >>= k) := by
  have hnext : ∀ r, M.sections.next (.inside key m) e r = .inside key m :=
    fun r => by simp only [sections, phaseAfter, hr]
  refine ⟨by simp only [sections, phaseAfter, hr]; exact ⟨trivial, hm⟩, fun r hrep => ?_⟩
  rw [hnext]
  exact h r hrep

theorem own_bind {β : Type} {p : Program E R β} {f : β → Program E R α}
    (hp : p.All fun e => M.role e = .own) (hf : ∀ b, M.Sectioned c (f b)) :
    M.Sectioned c (p >>= f) := by
  refine Obeys.all_bind hp (fun e hr => ?_) (fun e r hr => ?_) hf
  · simp only [sections, phaseAfter, hr]
  · simp only [sections, phaseAfter, hr]

theorem of_own {p : Program E R α} (hp : p.All fun e => M.role e = .own)
    (hc : ∀ key m, c ≠ .inside key m) : M.Sectioned c p := by
  refine Obeys.of_all hp (fun e hr => ?_) (fun e r hr => ?_) fun _ => hc
  · simp only [sections, phaseAfter, hr]
  · simp only [sections, phaseAfter, hr]

theorem shared_bind {β : Type} {p : Program E R β} {f : β → Program E R α}
    (hp : p.All fun e => M.role e = .access key .shared)
    (hf : ∀ b, M.Sectioned (.inside key m) (f b)) :
    M.Sectioned (.inside key m) (p >>= f) := by
  refine Obeys.all_bind hp (fun e hr => ?_) (fun e r hr => ?_) hf
  · simp only [sections, phaseAfter, hr]
    exact ⟨trivial, fun h => nomatch h⟩
  · simp only [sections, phaseAfter, hr]

end Sectioned

section Inversion
variable {e : E} {k : R e → Program E R α}

theorem sectioned_own {c : Phase K} (h : M.Sectioned c (.call e k)) (hr : M.role e = .own)
    (l : L) : M.Sectioned c (k (M.own e l).1) := by
  have hnext := h.2 _ (M.own_replies e l)
  have hc : M.sections.next c e (M.own e l).1 = c := by
    simp only [sections, phaseAfter, hr]
  rwa [hc] at hnext

theorem sectioned_acquire {c : Phase K} {key : K} {m : Mode} (h : M.Sectioned c (.call e k))
    (hr : M.role e = .acquire key m) (l : L) :
    c = .before ∧ M.valid key ∧ M.Sectioned (.inside key m) (k (M.own e l).1) := by
  have hadm := h.1
  have hnext := h.2 _ (M.own_replies e l)
  cases c with
  | before =>
    simp only [sections, phaseAfter, hr] at hadm hnext
    exact ⟨rfl, hadm, hnext⟩
  | inside k' m' => simp only [sections, phaseAfter, hr] at hadm
  | after => simp only [sections, phaseAfter, hr] at hadm

theorem sectioned_release {c : Phase K} {key : K} {m : Mode} (h : M.Sectioned c (.call e k))
    (hr : M.role e = .release key m) (l : L) :
    c = .inside key m ∧ M.Sectioned .after (k (M.own e l).1) := by
  have hadm := h.1
  have hnext := h.2 _ (M.own_replies e l)
  cases c with
  | before => simp only [sections, phaseAfter, hr] at hadm
  | inside k' m' =>
    simp only [sections, phaseAfter, hr] at hadm hnext
    obtain ⟨rfl, rfl⟩ := hadm
    exact ⟨rfl, hnext⟩
  | after => simp only [sections, phaseAfter, hr] at hadm

theorem sectioned_access {c : Phase K} {key : K} {m' : Mode} (h : M.Sectioned c (.call e k))
    (hr : M.role e = .access key m') (v : V) (l : L) :
    ∃ m, c = .inside key m ∧ (m' = .exclusive → m = .exclusive) ∧
      M.Sectioned (.inside key m) (k (M.touch e v l).1) := by
  have hadm := h.1
  have hnext := h.2 _ (M.touch_replies e v l)
  cases c with
  | before => simp only [sections, phaseAfter, hr] at hadm
  | inside k' m =>
    simp only [sections, phaseAfter, hr] at hadm hnext
    obtain ⟨rfl, hm⟩ := hadm
    exact ⟨m, rfl, hm, hnext⟩
  | after => simp only [sections, phaseAfter, hr] at hadm

theorem sectioned_handled [DecidableEq K] {c : Phase K} (h : M.Sectioned c (.call e k))
    {σ σ' : K → V} {l l' : L} {r : R e} (hh : M.handle e (σ, l) = some (r, σ', l')) :
    M.Sectioned (M.phaseAfter c e) (k r) := h.2 r (handle_replies hh)

theorem sectioned_not_other {c : Phase K} (h : M.Sectioned c (.call e k)) :
    M.role e ≠ .other := by
  intro hr
  have hadm := h.1
  cases c <;> simp only [sections, phaseAfter, hr] at hadm

end Inversion

/-- A write under a shared hold is impossible, so the component stays. -/
theorem touch_of_shared {e : E} {key : K} {m m' : Mode} (hr : M.role e = .access key m')
    (hm : m' = .exclusive → m = .exclusive) (hs : m = .shared) (v : V) (l : L) :
    (M.touch e v l).2.1 = v := by
  cases m' with
  | shared => exact M.touch_shared e key v l hr
  | exclusive => exact absurd (hm rfl) (by rw [hs]; decide)

/-- A program whose remaining calls all leave the store alone, whatever their replies. -/
def Rests (M : Semantics E R K V L) (p : Program E R α) : Prop :=
  Obeys { admits := fun _ e => Idle (M.role e), replies := M.replies, next := fun c _ _ => c }
    (fun _ _ => True) () p

theorem rests_of_all {p : Program E R α} (hp : p.All fun e => Idle (M.role e)) : M.Rests p :=
  Obeys.of_all hp (fun _ he => he) (fun _ _ _ => rfl) fun _ => trivial

theorem run_rests [DecidableEq K] {p : Program E R α} (hp : M.Rests p) (l : L) :
    ∃ a l', ∀ σ, p.run M.handle (σ, l) = some (a, σ, l') := by
  induction p generalizing l with
  | ret a => exact ⟨a, l, fun σ => rfl⟩
  | stuck => exact hp.elim
  | call e k ih =>
    obtain ⟨a, l', hrun⟩ := ih _ (hp.2 _ (M.own_replies e l)) (M.own e l).2
    exact ⟨a, l', fun σ => (run_idle hp.1 σ l).trans (hrun σ)⟩

/-- After its section a program neither reads nor writes the store. -/
theorem rests_after {p : Program E R α} (h : M.Sectioned .after p) : M.Rests p := by
  induction p with
  | ret a => trivial
  | stuck => exact h.elim
  | call e k ih =>
    have hown : M.role e = .own := by
      have hadm := h.1
      cases hr : M.role e <;> simp only [sections, hr] at hadm; rfl
    refine ⟨idle_own hown, fun r hrep => ih r ?_⟩
    have hnext := h.2 r hrep
    rwa [show M.sections.next .after e r = .after from rfl] at hnext

/-- Inside its section a program reads and writes one component only, and under a
shared hold it leaves that component as it is. -/
theorem run_inside [DecidableEq K] {p : Program E R α} {key : K} {m : Mode}
    (h : M.Sectioned (.inside key m) p) (v : V) (l : L) :
    ∃ a v' l', (m = .shared → v' = v) ∧
      ∀ σ, σ key = v → p.run M.handle (σ, l) = some (a, Function.update σ key v', l') := by
  induction p generalizing v l with
  | ret a => exact absurd rfl (h key m)
  | stuck => exact h.elim
  | call e k ih =>
    cases hr : M.role e with
    | own =>
      obtain ⟨a, v', l', hm, hrun⟩ := ih _ (sectioned_own h hr l) v (M.own e l).2
      exact ⟨a, v', l', hm, fun σ hσ => (run_idle (idle_own hr) σ l).trans (hrun σ hσ)⟩
    | acquire key m => exact nomatch (sectioned_acquire h hr l).1
    | release key' m' =>
      obtain ⟨a, l', hrun⟩ := run_rests (rests_after (sectioned_release h hr l).2) (M.own e l).2
      refine ⟨a, v, l', fun _ => rfl, fun σ hσ => ?_⟩
      rw [run_idle (idle_release hr) σ l, hrun σ, ← hσ, Function.update_eq_self]
    | access key' m' =>
      obtain ⟨m₁, hc, hm', hsec⟩ := sectioned_access h hr v l
      cases hc
      obtain ⟨a, v', l', hm, hrun⟩ := ih _ hsec (M.touch e v l).2.1 (M.touch e v l).2.2
      refine ⟨a, v', l', fun hs => ?_, fun σ hσ => ?_⟩
      · rw [hm hs]
        exact touch_of_shared hr hm' hs v l
      · rw [Program.run_call_of (handle_access hr σ l), hσ, hrun _ (Function.update_self ..),
          Function.update_idem]
    | other => exact absurd hr (sectioned_not_other h)

/-- What a program that rests does from one store, it does from all. -/
theorem wp_rests_iff [DecidableEq K] {p : Program E R α} {Q : (K → V) → L → Prop}
    {σ : K → V} {l : L} (hp : M.Rests p) (h : p.wp M.handle (fun _ s => Q s.1 s.2) (σ, l)) :
    ∃ l', Q σ l' ∧ ∀ τ, p.wp M.handle (fun _ s => s = (τ, l')) (τ, l) := by
  obtain ⟨a, l', hrun⟩ := run_rests hp l
  obtain ⟨b, s, hrun', hQ⟩ := h
  rw [hrun σ] at hrun'
  cases hrun'
  exact ⟨l', hQ, fun τ => ⟨a, _, hrun τ, rfl⟩⟩

/-- A call that touches one component at most does the same from any store that agrees on
that component. -/
theorem handle_agree [DecidableEq K] {e : E} {key : K} {σ σ' τ : K → V} {l l' : L} {r : R e}
    (hr : Idle (M.role e) ∨ ∃ m, M.role e = .access key m)
    (h : M.handle e (σ, l) = some (r, σ', l')) (hτ : τ key = σ key) :
    M.handle e (τ, l) = some (r, Function.update τ key (σ' key), l') := by
  rcases hr with hr | ⟨m, hr⟩
  · obtain ⟨rfl, rfl, rfl⟩ := of_handle_idle hr h
    rw [handle_idle hr, ← hτ, Function.update_eq_self]
  · obtain ⟨rfl, rfl, rfl⟩ := of_handle_access hr h
    rw [handle_access hr, hτ, Function.update_self]

/-- A prediction about all stores that agree with the current one on a component stays one
after a call that touches that component at most. -/
theorem wp_agree [DecidableEq K] {e : E} {k : R e → Program E R α} {key : K}
    {Q : α → (K → V) × L → Prop} {σ σ' : K → V} {l l' : L} {r : R e}
    (hr : Idle (M.role e) ∨ ∃ m, M.role e = .access key m)
    (hh : M.handle e (σ, l) = some (r, σ', l'))
    (h : ∀ τ, τ key = σ key → (Program.call e k).wp M.handle Q (τ, l)) :
    ∀ τ, τ key = σ' key → (k r).wp M.handle Q (τ, l') := by
  intro τ hτ
  have hagree := handle_agree hr hh (τ := Function.update τ key (σ key)) (Function.update_self ..)
  rw [Function.update_idem, ← hτ, Function.update_eq_self] at hagree
  exact Program.wp_of_call (h _ (Function.update_self ..)) hagree

theorem wp_own [DecidableEq K] {p : Program E R α} {Q : α → (K → V) × L → Prop} {σ : K → V}
    {l : L} (hp : p.All fun e => M.role e = .own) (h : ∀ a l', Q a (σ, l')) :
    p.wp M.handle Q (σ, l) := by
  obtain ⟨a, l', hrun⟩ := run_rests (rests_of_all (hp.mono fun _ => idle_own)) l
  exact ⟨a, _, hrun σ, h a l'⟩

theorem wp_shared [DecidableEq K] {p : Program E R α} {key : K}
    {Q : α → (K → V) × L → Prop} {σ : K → V} {l : L}
    (hp : M.Sectioned (.inside key .shared) p) (h : ∀ a l', Q a (σ, l')) :
    p.wp M.handle Q (σ, l) := by
  obtain ⟨a, v, l', hv, hrun⟩ := run_inside hp (σ key) l
  refine ⟨a, _, hrun σ rfl, ?_⟩
  rw [hv rfl, Function.update_eq_self]
  exact h a l'

end Semantics

open Semantics

/-- A thread: the rest of its program, its own state, and its phase. -/
structure Thread (E : Type) (R : E → Type) (K L α : Type) where
  prog : Program E R α
  loc : L
  phase : Phase K

structure Config (E : Type) (R : E → Type) (K V L T α : Type) where
  store : K → V
  thread : T → Thread E R K L α

def Config.set [DecidableEq T] (c : Config E R K V L T α) (t : T) (θ : Thread E R K L α) :
    Config E R K V L T α :=
  { c with thread := Function.update c.thread t θ }

/-- The interleaved steps. Only an acquisition waits: for an exclusive hold until nobody
holds the key, for a shared one until nobody holds it exclusively. -/
inductive Step [DecidableEq K] [DecidableEq T] (M : Semantics E R K V L) :
    Config E R K V L T α → T × Role K → Config E R K V L T α → Prop
  | own {c t e k} (hp : (c.thread t).prog = .call e k) (hr : M.role e = .own) :
      Step M c (t, .own) (c.set t ⟨k (M.own e (c.thread t).loc).1,
        (M.own e (c.thread t).loc).2, (c.thread t).phase⟩)
  | acquire {c t e k key m} (hp : (c.thread t).prog = .call e k)
      (hr : M.role e = .acquire key m)
      (hfree : ∀ u m', (c.thread u).phase = .inside key m' → m = .shared ∧ m' = .shared) :
      Step M c (t, .acquire key m) (c.set t ⟨k (M.own e (c.thread t).loc).1,
        (M.own e (c.thread t).loc).2, .inside key m⟩)
  | release {c t e k key m} (hp : (c.thread t).prog = .call e k)
      (hr : M.role e = .release key m) :
      Step M c (t, .release key m) (c.set t ⟨k (M.own e (c.thread t).loc).1,
        (M.own e (c.thread t).loc).2, .after⟩)
  | access {c t e k key m} (hp : (c.thread t).prog = .call e k)
      (hr : M.role e = .access key m) :
      Step M c (t, .access key m)
        { store := Function.update c.store key
            (M.touch e (c.store key) (c.thread t).loc).2.1
          thread := Function.update c.thread t
            ⟨k (M.touch e (c.store key) (c.thread t).loc).1,
              (M.touch e (c.store key) (c.thread t).loc).2.2, (c.thread t).phase⟩ }

/-- The threads in the order in which they acquired their keys. -/
def acquisitions : List (T × Role K) → List T
  | [] => []
  | (t, .acquire _ _) :: ls => t :: acquisitions ls
  | _ :: ls => acquisitions ls

theorem acquisitions_append (ls ks : List (T × Role K)) :
    acquisitions (ls ++ ks) = acquisitions ls ++ acquisitions ks := by
  induction ls with
  | nil => rfl
  | cons a ls ih =>
    obtain ⟨t, r⟩ := a
    cases r <;> simp [acquisitions, ih]

/-- Running whole programs one after another: the final store and each result. -/
inductive Serial [DecidableEq K] [DecidableEq T] (M : Semantics E R K V L)
    (start : T → Program E R α × L) (σ₀ : K → V) :
    List T → (K → V) → (T → Option (α × L)) → Prop
  | nil : Serial M start σ₀ [] σ₀ fun _ => none
  | snoc {ts σ outs t a σ' l'} (h : Serial M start σ₀ ts σ outs)
      (hrun : (start t).1.run M.handle (σ, (start t).2) = some (a, σ', l')) :
      Serial M start σ₀ (ts ++ [t]) σ' (Function.update outs t (some (a, l')))

def initial (start : T → Program E R α × L) (σ₀ : K → V) : Config E R K V L T α where
  store := σ₀
  thread t := ⟨(start t).1, (start t).2, .before⟩

/-- Where a thread stands with respect to the serial run of the acquisitions so far. -/
def ThreadInv [DecidableEq K] (M : Semantics E R K V L) (start : T → Program E R α × L)
    (store : K → V) (ord : List T) (σs : K → V) (outs : T → Option (α × L))
    (t : T) (θ : Thread E R K L α) : Prop :=
  M.Sectioned θ.phase θ.prog ∧
  match θ.phase with
  | .before => t ∉ ord ∧ ∀ σ, (start t).1.run M.handle (σ, (start t).2) =
      θ.prog.run M.handle (σ, θ.loc)
  | .inside key _ => t ∈ ord ∧ ∃ a l', outs t = some (a, l') ∧
      ∀ σ, σ key = store key →
        θ.prog.run M.handle (σ, θ.loc) = some (a, Function.update σ key (σs key), l')
  | .after => t ∈ ord ∧ ∃ a l', outs t = some (a, l') ∧
      ∀ σ, θ.prog.run M.handle (σ, θ.loc) = some (a, σ, l')

structure Inv [DecidableEq K] [DecidableEq T] (M : Semantics E R K V L)
    (start : T → Program E R α × L) (σ₀ : K → V)
    (ord : List T) (c : Config E R K V L T α) (σs : K → V) (outs : T → Option (α × L)) :
    Prop where
  serial : Serial M start σ₀ ord σs outs
  nodup : ord.Nodup
  settled : ∀ key, (∀ t, (c.thread t).phase ≠ .inside key .exclusive) → c.store key = σs key
  exclusion : ∀ t u key m m', t ≠ u → (c.thread t).phase = .inside key m →
    (c.thread u).phase = .inside key m' → m = .shared ∧ m' = .shared
  thread : ∀ t, ThreadInv M start c.store ord σs outs t (c.thread t)

section Preservation
variable [DecidableEq K] {M : Semantics E R K V L} {start : T → Program E R α × L} {σ₀ : K → V}
variable {ord : List T} {c : Config E R K V L T α} {σs : K → V} {outs : T → Option (α × L)}

theorem initial_inv [DecidableEq T] (hs : ∀ t, M.Sectioned .before (start t).1) :
    Inv M start σ₀ [] (initial start σ₀) σ₀ fun _ => none where
  serial := .nil
  nodup := List.nodup_nil
  settled _ _ := rfl
  exclusion _ _ _ _ _ _ h := nomatch h
  thread t := ⟨hs t, List.not_mem_nil, fun _ => rfl⟩

/-- A thread keeps its standing when the store changes at other keys only. -/
theorem ThreadInv.frame {t : T} {θ : Thread E R K L α} {store' : K → V}
    (h : ThreadInv M start c.store ord σs outs t θ)
    (hkey : ∀ key m, θ.phase = .inside key m → store' key = c.store key) :
    ThreadInv M start store' ord σs outs t θ := by
  refine ⟨h.1, ?_⟩
  have h2 := h.2
  cases hph : θ.phase with
  | before => simpa only [hph] using h2
  | inside key m =>
    simp only [hph] at h2 ⊢
    rw [hkey key m hph]
    exact h2
  | after => simpa only [hph] using h2

/-- What replacing one thread by `θ` in an unchanged phase keeps. -/
theorem Inv.set_same_phase [DecidableEq T] (hi : Inv M start σ₀ ord c σs outs) {t : T}
    {θ : Thread E R K L α} {store' : K → V} (hph : θ.phase = (c.thread t).phase)
    (hθ : ThreadInv M start store' ord σs outs t θ)
    (hsettled : ∀ key, (∀ u, (c.thread u).phase ≠ .inside key .exclusive) →
      store' key = c.store key)
    (hothers : ∀ u key m, u ≠ t → (c.thread u).phase = .inside key m →
      store' key = c.store key) :
    Inv M start σ₀ ord ⟨store', Function.update c.thread t θ⟩ σs outs := by
  have hphase : ∀ u, (Function.update c.thread t θ u).phase = (c.thread u).phase := by
    intro u
    by_cases hu : u = t
    · subst hu
      rw [Function.update_self, hph]
    · rw [Function.update_of_ne hu]
  refine ⟨hi.serial, hi.nodup, ?_, ?_, ?_⟩
  · intro key hkey
    simp only [hphase] at hkey
    exact (hsettled key hkey).trans (hi.settled key hkey)
  · intro u w key m m' hne hu hw
    simp only [hphase] at hu hw
    exact hi.exclusion u w key m m' hne hu hw
  · intro u
    by_cases hu : u = t
    · subst hu
      simpa only [Function.update_self] using hθ
    · simp only [Function.update_of_ne hu]
      exact (hi.thread u).frame fun key m hm => hothers u key m hu hm

theorem Inv.own [DecidableEq T] (hi : Inv M start σ₀ ord c σs outs) {t : T} {e : E}
    {k : R e → Program E R α} (hp : (c.thread t).prog = .call e k) (hr : M.role e = .own) :
    Inv M start σ₀ ord (c.set t ⟨k (M.own e (c.thread t).loc).1,
      (M.own e (c.thread t).loc).2, (c.thread t).phase⟩) σs outs := by
  refine hi.set_same_phase rfl ?_ (fun _ _ => rfl) fun _ _ _ _ _ => rfl
  have ht := hi.thread t
  have hsec := ht.1
  have h2 := ht.2
  rw [hp] at hsec
  refine ⟨sectioned_own hsec hr _, ?_⟩
  cases hph : (c.thread t).phase with
  | before =>
    simp only [hph, hp] at h2 ⊢
    exact ⟨h2.1, fun σ => (h2.2 σ).trans (run_idle (idle_own hr) σ _)⟩
  | inside key m =>
    simp only [hph, hp] at h2 ⊢
    obtain ⟨hmem, a, l', hout, hrun⟩ := h2
    exact ⟨hmem, a, l', hout, fun σ hσ =>
      (run_idle (idle_own hr) σ _).symm.trans (hrun σ hσ)⟩
  | after =>
    simp only [hph, hp] at h2 ⊢
    obtain ⟨hmem, a, l', hout, hrun⟩ := h2
    exact ⟨hmem, a, l', hout, fun σ => (run_idle (idle_own hr) σ _).symm.trans (hrun σ)⟩

/-- Others inside the key of an access hold it shared, and so does the accessing thread,
which then cannot have changed the component. -/
theorem Inv.access [DecidableEq T] (hi : Inv M start σ₀ ord c σs outs) {t : T} {e : E}
    {k : R e → Program E R α} {key : K} {m : Mode} (hp : (c.thread t).prog = .call e k)
    (hr : M.role e = .access key m) :
    Inv M start σ₀ ord
      ⟨Function.update c.store key (M.touch e (c.store key) (c.thread t).loc).2.1,
        Function.update c.thread t ⟨k (M.touch e (c.store key) (c.thread t).loc).1,
          (M.touch e (c.store key) (c.thread t).loc).2.2, (c.thread t).phase⟩⟩ σs outs := by
  have ht := hi.thread t
  have hsec := ht.1
  have h2 := ht.2
  rw [hp] at hsec
  obtain ⟨m₁, hph, hm, hsec'⟩ := sectioned_access hsec hr (c.store key) (c.thread t).loc
  simp only [hph, hp] at h2
  obtain ⟨hmem, a, l', hout, hrun⟩ := h2
  have hshared : m₁ = .shared → Function.update c.store key
      (M.touch e (c.store key) (c.thread t).loc).2.1 = c.store := by
    intro hs
    rw [touch_of_shared hr hm hs, Function.update_eq_self]
  refine hi.set_same_phase rfl ?_ ?_ ?_
  · refine ⟨hph ▸ hsec', ?_⟩
    simp only [hph]
    refine ⟨hmem, a, l', hout, fun σ hσ => ?_⟩
    rw [Function.update_self] at hσ
    have hback : Function.update (Function.update σ key (c.store key)) key
        (M.touch e (c.store key) (c.thread t).loc).2.1 = σ := by
      rw [Function.update_idem, ← hσ, Function.update_eq_self]
    have hold := hrun (Function.update σ key (c.store key)) (Function.update_self ..)
    rw [Program.run_call_of (handle_access hr _ _), Function.update_self, hback,
      Function.update_idem] at hold
    exact hold
  · intro key' hkey'
    by_cases hk : key' = key
    · subst hk
      cases hm₁ : m₁ with
      | shared => rw [hshared hm₁]
      | exclusive => exact absurd (hm₁ ▸ hph) (hkey' t)
    · exact Function.update_of_ne hk ..
  · intro u key' m' hu hu'
    by_cases hk : key' = key
    · subst hk
      rw [hshared (hi.exclusion t u key' m₁ m' (Ne.symm hu) hph hu').1]
    · exact Function.update_of_ne hk ..

theorem Inv.release [DecidableEq T] (hi : Inv M start σ₀ ord c σs outs) {t : T} {e : E}
    {k : R e → Program E R α} {key : K} {m : Mode} (hp : (c.thread t).prog = .call e k)
    (hr : M.role e = .release key m) :
    Inv M start σ₀ ord (c.set t ⟨k (M.own e (c.thread t).loc).1,
      (M.own e (c.thread t).loc).2, .after⟩) σs outs := by
  have ht := hi.thread t
  have hsec := ht.1
  have h2 := ht.2
  rw [hp] at hsec
  obtain ⟨hph, hsec'⟩ := sectioned_release hsec hr (c.thread t).loc
  simp only [hph, hp] at h2
  obtain ⟨hmem, a, l', hout, hrun⟩ := h2
  obtain ⟨a', l'', hafter⟩ := run_rests (rests_after hsec') (M.own e (c.thread t).loc).2
  have hboth := hrun c.store rfl
  rw [run_idle (idle_release hr), hafter] at hboth
  obtain ⟨rfl, hstore, rfl⟩ : a' = a ∧ c.store = Function.update c.store key (σs key) ∧
      l'' = l' := by simpa using hboth
  have hkey : c.store key = σs key := by
    have := congrFun hstore key
    rwa [Function.update_self] at this
  have hphase : ∀ u key' m', ((c.set t ⟨k (M.own e (c.thread t).loc).1,
      (M.own e (c.thread t).loc).2, .after⟩).thread u).phase = .inside key' m' →
      u ≠ t ∧ (c.thread u).phase = .inside key' m' := by
    intro u key' m' hu
    by_cases hut : u = t
    · subst hut
      simp [Config.set] at hu
    · exact ⟨hut, by simpa [Config.set, Function.update_of_ne hut] using hu⟩
  refine ⟨hi.serial, hi.nodup, ?_, ?_, ?_⟩
  · intro key' hkey'
    by_cases hk : key' = key
    · subst hk
      exact hkey
    · refine hi.settled key' fun u hu => ?_
      have hut : u ≠ t := by
        rintro rfl
        rw [hph] at hu
        cases hu
        exact hk rfl
      refine hkey' u ?_
      simpa [Config.set, Function.update_of_ne hut] using hu
  · intro u w key' m₁ m₂ hne hu hw
    exact hi.exclusion u w key' m₁ m₂ hne (hphase u key' m₁ hu).2 (hphase w key' m₂ hw).2
  · intro u
    by_cases hut : u = t
    · subst hut
      simp only [Config.set, Function.update_self]
      exact ⟨hsec', hmem, a', l'', hout, hafter⟩
    · simp only [Config.set, Function.update_of_ne hut]
      exact hi.thread u

/-- An acquisition appends the thread to the serial order; its whole program, run on the
serial store, is the rest of its program run on the current store. -/
theorem Inv.acquire [DecidableEq T] (hi : Inv M start σ₀ ord c σs outs) {t : T} {e : E}
    {k : R e → Program E R α} {key : K} {m : Mode} (hp : (c.thread t).prog = .call e k)
    (hr : M.role e = .acquire key m)
    (hfree : ∀ u m', (c.thread u).phase = .inside key m' → m = .shared ∧ m' = .shared) :
    ∃ σs' outs', Inv M start σ₀ (ord ++ [t]) (c.set t ⟨k (M.own e (c.thread t).loc).1,
      (M.own e (c.thread t).loc).2, .inside key m⟩) σs' outs' := by
  have ht := hi.thread t
  have hsec := ht.1
  have h2 := ht.2
  rw [hp] at hsec
  obtain ⟨hph, -, hsec'⟩ := sectioned_acquire hsec hr (c.thread t).loc
  simp only [hph, hp] at h2
  obtain ⟨hnot, hstart⟩ := h2
  obtain ⟨a, v, l', hshared, hrun⟩ := run_inside hsec' (σs key) (M.own e (c.thread t).loc).2
  have hkey : c.store key = σs key := by
    refine hi.settled key fun u hu => ?_
    exact absurd (hfree u .exclusive hu).2 (by decide)
  have hserial : (start t).1.run M.handle (σs, (start t).2) =
      some (a, Function.update σs key v, l') := by
    rw [hstart, run_idle (idle_acquire hr)]
    exact hrun σs rfl
  have hold : ∀ u key' m', u ≠ t → (c.thread u).phase = .inside key' m' →
      Function.update σs key v key' = σs key' := by
    intro u key' m' hu hu'
    by_cases hk : key' = key
    · subst hk
      rw [Function.update_self, hshared (hfree u m' hu').1]
    · exact Function.update_of_ne hk ..
  have hother : ∀ {u}, u ≠ t → (c.set t ⟨k (M.own e (c.thread t).loc).1,
      (M.own e (c.thread t).loc).2, .inside key m⟩).thread u = c.thread u :=
    fun hu => Function.update_of_ne hu ..
  have hself : (c.set t ⟨k (M.own e (c.thread t).loc).1,
      (M.own e (c.thread t).loc).2, .inside key m⟩).thread t =
      ⟨k (M.own e (c.thread t).loc).1, (M.own e (c.thread t).loc).2, .inside key m⟩ :=
    Function.update_self ..
  refine ⟨Function.update σs key v, Function.update outs t (some (a, l')),
    hi.serial.snoc hserial, ?_, ?_, ?_, ?_⟩
  · exact hi.nodup.append (List.nodup_singleton t) (by simpa using hnot)
  · intro key' hkey'
    by_cases hk : key' = key
    · subst hk
      cases m with
      | shared => rw [Function.update_self, hshared rfl]; exact hkey
      | exclusive => exact absurd (congrArg Thread.phase hself) (hkey' t)
    · rw [Function.update_of_ne hk]
      refine hi.settled key' fun u hu => ?_
      have hut : u ≠ t := by
        rintro rfl
        rw [hph] at hu
        cases hu
      exact hkey' u (by rw [hother hut]; exact hu)
  · intro u w key' m₁ m₂ hne hu hw
    by_cases hut : u = t
    · subst hut
      rw [hself] at hu
      cases hu
      rw [hother (Ne.symm hne)] at hw
      exact hfree w m₂ hw
    · rw [hother hut] at hu
      by_cases hwt : w = t
      · subst hwt
        rw [hself] at hw
        cases hw
        exact (hfree u m₁ hu).symm
      · rw [hother hwt] at hw
        exact hi.exclusion u w key' m₁ m₂ hne hu hw
  · intro u
    by_cases hut : u = t
    · subst hut
      rw [hself]
      refine ⟨hsec', List.mem_append_right _ (List.mem_singleton_self u), a, l',
        Function.update_self .., fun σ hσ => ?_⟩
      rw [Function.update_self]
      exact hrun σ (hσ.trans hkey)
    · rw [hother hut]
      have hu := hi.thread u
      refine ⟨hu.1, ?_⟩
      have hu2 := hu.2
      cases hphu : (c.thread u).phase with
      | before =>
        simp only [hphu] at hu2 ⊢
        exact ⟨by simpa using ⟨hu2.1, hut⟩, hu2.2⟩
      | inside key' m' =>
        simp only [hphu] at hu2 ⊢
        rw [hold u key' m' hut hphu, Function.update_of_ne hut]
        exact ⟨List.mem_append_left _ hu2.1, hu2.2⟩
      | after =>
        simp only [hphu] at hu2 ⊢
        rw [Function.update_of_ne hut]
        exact ⟨List.mem_append_left _ hu2.1, hu2.2⟩

end Preservation

section Main
variable [DecidableEq K] [DecidableEq T] {M : Semantics E R K V L}
  {start : T → Program E R α × L} {σ₀ : K → V}

/-- Every reachable configuration stands in the invariant to the serial run of the
acquisitions made so far. -/
theorem reachable_inv (hs : ∀ t, M.Sectioned .before (start t).1)
    {ls : List (T × Role K)} {c : Config E R K V L T α}
    (h : Run (Step M) (initial start σ₀) ls c) :
    ∃ σs outs, Inv M start σ₀ (acquisitions ls) c σs outs := by
  refine h.traceInvariant (I := fun ls c => ∃ σs outs, Inv M start σ₀ (acquisitions ls) c σs outs)
    ⟨_, _, initial_inv hs⟩ ?_
  rintro ls c a c' ⟨σs, outs, hi⟩ hstep
  rw [acquisitions_append]
  cases hstep with
  | own hp hr => simpa [acquisitions] using ⟨σs, outs, hi.own hp hr⟩
  | acquire hp hr hfree => exact hi.acquire hp hr hfree
  | release hp hr => simpa [acquisitions] using ⟨σs, outs, hi.release hp hr⟩
  | access hp hr => simpa [acquisitions] using ⟨σs, outs, hi.access hp hr⟩

/-- What every program keeps holds of every store of a serial run: each program is run on
such a store, and the final store is one. -/
theorem Serial.invariant {I : (K → V) → Prop} {ts : List T} {σ : K → V}
    {outs : T → Option (α × L)} (h : Serial M start σ₀ ts σ outs) (h0 : I σ₀)
    (hkeep : ∀ t σ a σ' l', I σ → (start t).1.run M.handle (σ, (start t).2) = some (a, σ', l') →
      I σ') :
    I σ ∧ ∀ t a l', outs t = some (a, l') → ∃ σ σ', I σ ∧
      (start t).1.run M.handle (σ, (start t).2) = some (a, σ', l') := by
  induction h with
  | nil => exact ⟨h0, fun t a l' h => nomatch h⟩
  | @snoc ts σ outs t a σ' l' hser hrun ih =>
    refine ⟨hkeep t σ a σ' l' ih.1 hrun, fun u b m hu => ?_⟩
    by_cases hut : u = t
    · subst hut
      rw [Function.update_self] at hu
      cases hu
      exact ⟨σ, σ', ih.1, hrun⟩
    · rw [Function.update_of_ne hut] at hu
      exact ih.2 u b m hu

/-- A thread that has returned did so in the serial run of the acquisitions made so far, or
it never acquired a key and would have done so from any store. -/
theorem returned_serial (hs : ∀ t, M.Sectioned .before (start t).1)
    {ls : List (T × Role K)} {c : Config E R K V L T α}
    (h : Run (Step M) (initial start σ₀) ls c) :
    ∃ σs outs, Serial M start σ₀ (acquisitions ls) σs outs ∧
      ∀ t a, (c.thread t).prog = .ret a → outs t = some (a, (c.thread t).loc) ∨
        ∀ σ, (start t).1.run M.handle (σ, (start t).2) = some (a, σ, (c.thread t).loc) := by
  obtain ⟨σs, outs, hi⟩ := reachable_inv hs h
  refine ⟨σs, outs, hi.serial, fun t a ha => ?_⟩
  obtain ⟨hsec, h2⟩ := hi.thread t
  rw [ha] at hsec
  cases hph : (c.thread t).phase with
  | before =>
    simp only [hph, ha] at h2
    exact Or.inr h2.2
  | inside key m => exact absurd hph (hsec key m)
  | after =>
    simp only [hph, ha] at h2
    obtain ⟨-, b, l', hout, hrun⟩ := h2
    obtain ⟨rfl, -, rfl⟩ : a = b ∧ σs = σs ∧ (c.thread t).loc = l' := by simpa using hrun σs
    exact Or.inl hout

/-- Threads whose programs return without a section may be run last, in any order. -/
theorem Serial.append_idle {ord : List T} {σs : K → V} {outs : T → Option (α × L)}
    (h : Serial M start σ₀ ord σs outs) (rest : List T) (hnd : rest.Nodup)
    (res : T → α × L)
    (hrest : ∀ t ∈ rest, ∀ σ, (start t).1.run M.handle (σ, (start t).2) =
      some ((res t).1, σ, (res t).2)) :
    ∃ outs', Serial M start σ₀ (ord ++ rest) σs outs' ∧
      (∀ t ∈ rest, outs' t = some (res t)) ∧ ∀ t ∉ rest, outs' t = outs t := by
  induction rest using List.reverseRecOn with
  | nil => exact ⟨outs, by simpa using h, by simp, fun _ _ => rfl⟩
  | append_singleton rest t ih =>
    obtain ⟨hnd', -, hdisj⟩ := List.nodup_append.mp hnd
    have ht : t ∉ rest := fun hm => hdisj t hm t (List.mem_singleton_self t) rfl
    obtain ⟨outs', hser, hin, hout⟩ := ih hnd' fun u hu =>
      hrest u (List.mem_append_left _ hu)
    refine ⟨Function.update outs' t (some (res t)), ?_, ?_, ?_⟩
    · rw [← List.append_assoc]
      exact hser.snoc (hrest t (List.mem_append_right _ (List.mem_singleton_self t)) σs)
    · intro u hu
      by_cases hut : u = t
      · subst hut
        exact Function.update_self ..
      · rw [Function.update_of_ne hut]
        rcases List.mem_append.mp hu with hu | hu
        · exact hin u hu
        · exact absurd (List.mem_singleton.mp hu) hut
    · intro u hu
      simp only [List.mem_append, List.mem_singleton, not_or] at hu
      rw [Function.update_of_ne hu.2]
      exact hout u hu.1

/-- When every thread has returned, the final store and all results are those of running
the threads one at a time, in an order that starts with the order of acquisitions. -/
theorem serializable [Fintype T] (hs : ∀ t, M.Sectioned .before (start t).1)
    {ls : List (T × Role K)} {c : Config E R K V L T α}
    (h : Run (Step M) (initial start σ₀) ls c) (res : T → α)
    (hdone : ∀ t, (c.thread t).prog = .ret (res t)) :
    ∃ order outs, acquisitions ls <+: order ∧ order.Nodup ∧ (∀ t, t ∈ order) ∧
      Serial M start σ₀ order c.store outs ∧
      ∀ t, outs t = some (res t, (c.thread t).loc) := by
  obtain ⟨σs, outs, hi⟩ := reachable_inv hs h
  have hnot : ∀ t key m, (c.thread t).phase ≠ .inside key m := by
    intro t key m hph
    have hsec := (hi.thread t).1
    rw [hdone t] at hsec
    exact hsec key m hph
  have hstore : c.store = σs := funext fun key => hi.settled key fun t => hnot t key _
  let rest := (Finset.univ.filter fun t => t ∉ acquisitions ls).toList
  have hmem : ∀ t, t ∈ rest ↔ t ∉ acquisitions ls := fun t => by simp [rest]
  have hidle : ∀ t ∈ rest, ∀ σ, (start t).1.run M.handle (σ, (start t).2) =
      some (res t, σ, (c.thread t).loc) := by
    intro t ht σ
    have h2 := (hi.thread t).2
    cases hph : (c.thread t).phase with
    | before =>
      simp only [hph, hdone t] at h2
      exact h2.2 σ
    | inside key m => exact absurd hph (hnot t key m)
    | after =>
      simp only [hph] at h2
      exact absurd h2.1 ((hmem t).mp ht)
  obtain ⟨outs', hser, hin, hout⟩ := hi.serial.append_idle rest (Finset.nodup_toList _)
    (fun t => (res t, (c.thread t).loc)) hidle
  refine ⟨acquisitions ls ++ rest, outs', List.prefix_append _ _, ?_, ?_, ?_, ?_⟩
  · refine List.nodup_append.mpr ⟨hi.nodup, Finset.nodup_toList _, ?_⟩
    rintro t ht u hu rfl
    exact (hmem t).mp hu ht
  · intro t
    by_cases ht : t ∈ acquisitions ls
    · exact List.mem_append_left _ ht
    · exact List.mem_append_right _ ((hmem t).mpr ht)
  · rw [hstore]
    exact hser
  · intro t
    by_cases ht : t ∈ rest
    · exact hin t ht
    · rw [hout t ht]
      have h2 := (hi.thread t).2
      cases hph : (c.thread t).phase with
      | before =>
        simp only [hph] at h2
        exact absurd ((hmem t).mpr h2.1) ht
      | inside key m => exact absurd hph (hnot t key m)
      | after =>
        simp only [hph, hdone t] at h2
        obtain ⟨-, a, l', houts, hrun⟩ := h2
        have hr := hrun c.store
        simp only [Program.run_ret, Option.some.injEq, Prod.mk.injEq] at hr
        rw [houts, hr.1, hr.2.2]

end Main

end KeyedStore
