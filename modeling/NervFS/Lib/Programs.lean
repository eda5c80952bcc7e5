import Mathlib.Control.Basic
import Mathlib.Data.Nat.Notation
import Mathlib.Logic.Basic

/-!
Programs that talk to their environment through calls. A program is the tree of
its calls and of what it does with every possible reply; `stuck` marks behaviour
the language leaves undefined. The same tree is run against a state by `run`,
reasoned about by the weakest precondition `wp`, and checked against a calling
discipline by `Obeys`, whatever the replies are.
-/
namespace Programs

variable {E : Type} {R : E → Type} {α β σ κ : Type}

inductive Program (E : Type) (R : E → Type) (α : Type) : Type
  | ret (a : α)
  | stuck
  | call (e : E) (k : R e → Program E R α)

namespace Program

def bind : Program E R α → (α → Program E R β) → Program E R β
  | ret a, f => f a
  | stuck, _ => stuck
  | call e k, f => call e fun r => (k r).bind f

instance : Monad (Program E R) where
  pure := ret
  bind := bind

/-- Make one call and return its reply. -/
def perform (e : E) : Program E R (R e) := call e ret

@[simp] theorem pure_eq (a : α) : (pure a : Program E R α) = ret a := rfl

@[simp] theorem ret_bind (a : α) (f : α → Program E R β) : (ret a >>= f) = f a := rfl

@[simp] theorem stuck_bind (f : α → Program E R β) : ((stuck : Program E R α) >>= f) = stuck := rfl

@[simp] theorem call_bind (e : E) (k : R e → Program E R α) (f : α → Program E R β) :
    (call e k >>= f) = call e fun r => k r >>= f := rfl

@[simp] theorem perform_bind (e : E) (f : R e → Program E R β) :
    (perform e >>= f) = call e f := rfl

theorem bind_ret (p : Program E R α) : (p >>= fun a => ret a) = p := by
  induction p with
  | ret a => rfl
  | stuck => rfl
  | call e k ih => exact congrArg (call e) (funext fun r => ih r)

theorem bind_assoc {γ : Type} (p : Program E R α) (f : α → Program E R β)
    (g : β → Program E R γ) : (p >>= f >>= g) = p >>= fun a => f a >>= g := by
  induction p with
  | ret a => rfl
  | stuck => rfl
  | call e k ih => exact congrArg (call e) (funext fun r => ih r)

@[simp] theorem bind_unit (p : Program E R Unit) : (p >>= fun _ => ret ()) = p := bind_ret p

/-- The result of a program that has nothing left to do. -/
def result : Program E R α → Option α
  | ret a => some a
  | _ => none

theorem result_eq_some {p : Program E R α} {a : α} : p.result = some a ↔ p = ret a := by
  cases p <;> simp [result]

/-- The call that a program makes next. -/
def next? : Program E R α → Option E
  | call e _ => some e
  | _ => none

section Run
variable (handle : (e : E) → σ → Option (R e × σ))

/-- Running a program: `handle` answers each call, or blocks. -/
def run : Program E R α → σ → Option (α × σ)
  | ret a, s => some (a, s)
  | stuck, _ => none
  | call e k, s => (handle e s).bind fun p => run (k p.1) p.2

@[simp] theorem run_ret (a : α) (s : σ) : (ret a : Program E R α).run handle s = some (a, s) := rfl

theorem run_call (e : E) (k : R e → Program E R α) (s : σ) :
    (call e k).run handle s = (handle e s).bind fun p => (k p.1).run handle p.2 := rfl

theorem run_call_of {handle : (e : E) → σ → Option (R e × σ)} {e : E}
    {k : R e → Program E R α} {s s' : σ} {r : R e} (h : handle e s = some (r, s')) :
    (call e k).run handle s = (k r).run handle s' := by
  rw [run_call, h]
  rfl

theorem run_bind (p : Program E R α) (f : α → Program E R β) (s : σ) :
    (p >>= f).run handle s = (p.run handle s).bind fun q => (f q.1).run handle q.2 := by
  induction p generalizing s with
  | ret a => rfl
  | stuck => rfl
  | call e k ih =>
    simp only [call_bind, run_call]
    cases handle e s with
    | none => rfl
    | some q => exact ih q.1 q.2

/-- The program returns, and its result and final state satisfy `Q`. -/
def wp (p : Program E R α) (Q : α → σ → Prop) (s : σ) : Prop :=
  ∃ a t, p.run handle s = some (a, t) ∧ Q a t

@[simp] theorem wp_ret (a : α) (Q : α → σ → Prop) (s : σ) :
    (ret a : Program E R α).wp handle Q s ↔ Q a s := by
  constructor
  · rintro ⟨b, t, hrun, hQ⟩
    cases hrun
    exact hQ
  · exact fun hQ => ⟨a, s, rfl, hQ⟩

variable {handle}

theorem wp_call {e : E} {k : R e → Program E R α} {Q : α → σ → Prop} {s s' : σ} {r : R e}
    (h : handle e s = some (r, s')) (hk : (k r).wp handle Q s') :
    (call e k).wp handle Q s := by
  obtain ⟨a, t, hrun, hQ⟩ := hk
  exact ⟨a, t, (run_call_of h).trans hrun, hQ⟩

theorem wp_of_call {e : E} {k : R e → Program E R α} {Q : α → σ → Prop} {s s' : σ} {r : R e}
    (h : (call e k).wp handle Q s) (hh : handle e s = some (r, s')) : (k r).wp handle Q s' := by
  obtain ⟨a, t, hrun, hQ⟩ := h
  exact ⟨a, t, (run_call_of hh).symm.trans hrun, hQ⟩

theorem wp_and {p : Program E R α} {Q Q' : α → σ → Prop} {s : σ} (h : p.wp handle Q s)
    (h' : p.wp handle Q' s) : p.wp handle (fun a t => Q a t ∧ Q' a t) s := by
  obtain ⟨a, t, hrun, hQ⟩ := h
  obtain ⟨a', t', hrun', hQ'⟩ := h'
  rw [hrun] at hrun'
  cases hrun'
  exact ⟨a, t, hrun, hQ, hQ'⟩

theorem wp_bind {p : Program E R α} {f : α → Program E R β} {Q : β → σ → Prop}
    {s : σ} (h : p.wp handle (fun a t => (f a).wp handle Q t) s) :
    (p >>= f).wp handle Q s := by
  obtain ⟨a, t, hrun, b, u, hrun', hQ⟩ := h
  refine ⟨b, u, ?_, hQ⟩
  rw [run_bind, hrun]
  exact hrun'

theorem wp_mono {p : Program E R α} {Q Q' : α → σ → Prop} {s : σ}
    (h : p.wp handle Q s) (himp : ∀ a t, Q a t → Q' a t) : p.wp handle Q' s := by
  obtain ⟨a, t, hrun, hQ⟩ := h
  exact ⟨a, t, hrun, himp a t hQ⟩

end Run

section Struck
variable (handle : (e : E) → σ → Option (R e × σ)) (strike : E → σ → σ)

/-- Call number `n` of a run, with its reply. -/
def callAt : ℕ → Program E R α → σ → Option ((e : E) × R e)
  | 0, call e _, s => (handle e s).map fun r => ⟨e, r.1⟩
  | n + 1, call e k, s => (handle e s).bind fun r => callAt n (k r.1) r.2
  | _, _, _ => none

/-- The run whose call number `n` is struck; a run with fewer calls goes on as it is. -/
def runStruck : ℕ → Program E R α → σ → Option (α × σ)
  | _, ret a, s => some (a, s)
  | _, stuck, _ => none
  | 0, call e k, s => (handle e (strike e s)).bind fun r => (k r.1).run handle r.2
  | n + 1, call e k, s => (handle e s).bind fun r => runStruck n (k r.1) r.2

variable {handle strike}

theorem callAt_zero {e : E} {k : R e → Program E R α} {s t : σ} {r : R e}
    (h : handle e s = some (r, t)) : callAt handle 0 (call e k) s = some ⟨e, r⟩ := by
  simp only [callAt, h, Option.map_some]

theorem callAt_succ {e : E} {k : R e → Program E R α} {s t : σ} {r : R e} {n : ℕ}
    (h : handle e s = some (r, t)) :
    callAt handle (n + 1) (call e k) s = callAt handle n (k r) t := by
  simp only [callAt, h, Option.bind_some]

theorem runStruck_zero {e : E} {k : R e → Program E R α} {s t : σ} {r : R e}
    (h : handle e (strike e s) = some (r, t)) :
    runStruck handle strike 0 (call e k) s = (k r).run handle t := by
  simp only [runStruck, h, Option.bind_some]

theorem runStruck_succ {e : E} {k : R e → Program E R α} {s t : σ} {r : R e} {n : ℕ}
    (h : handle e s = some (r, t)) :
    runStruck handle strike (n + 1) (call e k) s = runStruck handle strike n (k r) t := by
  simp only [runStruck, h, Option.bind_some]

theorem run_call_some {e : E} {k : R e → Program E R α} {s : σ} {q : α × σ}
    (h : (call e k).run handle s = some q) :
    ∃ r t, handle e s = some (r, t) ∧ (k r).run handle t = some q := by
  rw [run_call] at h
  obtain ⟨⟨r, t⟩, hr, hk⟩ := Option.bind_eq_some_iff.mp h
  exact ⟨r, t, hr, hk⟩

/-- A struck call of a sequence is one of its first part, or one of its second. -/
theorem struck_bind (strike : E → σ → σ) {p : Program E R α} {s t : σ} {a : α}
    (f : α → Program E R β) (n : ℕ) (h : p.run handle s = some (a, t)) :
    (∃ c, callAt handle n p s = some c ∧ callAt handle n (p >>= f) s = some c ∧
      runStruck handle strike n (p >>= f) s =
        (runStruck handle strike n p s).bind fun q => (f q.1).run handle q.2) ∨
    ∃ m, callAt handle n (p >>= f) s = callAt handle m (f a) t ∧
      runStruck handle strike n (p >>= f) s = runStruck handle strike m (f a) t := by
  induction p generalizing n s with
  | ret b =>
    cases h
    exact Or.inr ⟨n, rfl, rfl⟩
  | stuck => cases h
  | call e k ih =>
    obtain ⟨r, s', hr, hk⟩ := run_call_some h
    cases n with
    | zero =>
      refine Or.inl ⟨⟨e, r⟩, callAt_zero hr, callAt_zero hr, ?_⟩
      simp only [call_bind, runStruck]
      cases handle e (strike e s) with
      | none => rfl
      | some q => exact run_bind handle (k q.1) f q.2
    | succ n =>
      rw [call_bind, callAt_succ hr, callAt_succ hr, runStruck_succ hr, runStruck_succ hr]
      exact ih r n hk

end Struck

/-- Every call of a program satisfies a predicate, and none of its ends is stuck. -/
def All (P : E → Prop) : Program E R α → Prop
  | ret _ => True
  | stuck => False
  | call e k => P e ∧ ∀ r, (k r).All P

theorem All.bind {P : E → Prop} {p : Program E R α} {f : α → Program E R β}
    (hp : p.All P) (hf : ∀ a, (f a).All P) : (p >>= f).All P := by
  induction p with
  | ret a => exact hf a
  | stuck => exact hp
  | call e k ih => exact ⟨hp.1, fun r => ih r (hp.2 r)⟩

theorem All.mono {P Q : E → Prop} {p : Program E R α} (hp : p.All P)
    (himp : ∀ e, P e → Q e) : p.All Q := by
  induction p with
  | ret a => trivial
  | stuck => exact hp
  | call e k ih => exact ⟨himp e hp.1, fun r => ih r (hp.2 r)⟩

end Program

open Program

/-- A calling discipline: in a context `c`, which calls may be made, which replies
they can get, and the context that a reply leads to. -/
structure Discipline (E : Type) (R : E → Type) (κ : Type) where
  admits : κ → E → Prop
  replies : (e : E) → R e → Prop
  next : κ → (e : E) → R e → κ

/-- Started in context `c` and whatever the replies, the program makes admitted calls
only, never gets stuck, and returns in a context and with a result that satisfy `post`. -/
def Obeys (D : Discipline E R κ) (post : κ → α → Prop) : κ → Program E R α → Prop
  | c, ret a => post c a
  | _, stuck => False
  | c, call e k => D.admits c e ∧ ∀ r, D.replies e r → Obeys D post (D.next c e r) (k r)

namespace Obeys
variable {D : Discipline E R κ} {post : κ → α → Prop} {c : κ}

@[simp] theorem ret_iff (a : α) : Obeys D post c (ret a) ↔ post c a := Iff.rfl

theorem bind {p : Program E R α} {f : α → Program E R β} {post : κ → β → Prop}
    (h : Obeys D (fun c a => Obeys D post c (f a)) c p) : Obeys D post c (p >>= f) := by
  induction p generalizing c with
  | ret a => exact h
  | stuck => exact h
  | call e k ih => exact ⟨h.1, fun r hr => ih r (h.2 r hr)⟩

/-- Calls that are admitted in `c` and lead back to `c` may be made in any number. -/
theorem of_all {P : E → Prop} {p : Program E R α} (hp : p.All P)
    (hadm : ∀ e, P e → D.admits c e) (hnext : ∀ e r, P e → D.next c e r = c)
    (hpost : ∀ a, post c a) : Obeys D post c p := by
  induction p with
  | ret a => exact hpost a
  | stuck => exact hp
  | call e k ih =>
    refine ⟨hadm e hp.1, fun r _ => ?_⟩
    rw [hnext e r hp.1]
    exact ih r (hp.2 r)

/-- A program whose neutral calls come first, then one that obeys. -/
theorem all_bind {P : E → Prop} {p : Program E R α} {f : α → Program E R β}
    {post : κ → β → Prop} (hp : p.All P)
    (hadm : ∀ e, P e → D.admits c e) (hnext : ∀ e r, P e → D.next c e r = c)
    (hf : ∀ a, Obeys D post c (f a)) : Obeys D post c (p >>= f) :=
  bind (of_all hp hadm hnext hf)

end Obeys

/-- As `Obeys`, for a program that may run into undefined behaviour. -/
def Abides (D : Discipline E R κ) (post : κ → α → Prop) : κ → Program E R α → Prop
  | c, ret a => post c a
  | _, stuck => True
  | c, call e k => D.admits c e ∧ ∀ r, D.replies e r → Abides D post (D.next c e r) (k r)

namespace Abides
variable {D : Discipline E R κ} {post : κ → α → Prop} {c : κ}

theorem bind {p : Program E R α} {f : α → Program E R β} {post : κ → β → Prop}
    (h : Abides D (fun c a => Abides D post c (f a)) c p) : Abides D post c (p >>= f) := by
  induction p generalizing c with
  | ret a => exact h
  | stuck => trivial
  | call e k ih => exact ⟨h.1, fun r hr => ih r (h.2 r hr)⟩

theorem mono {post' : κ → α → Prop} {p : Program E R α} (h : Abides D post c p)
    (himp : ∀ c a, post c a → post' c a) : Abides D post' c p := by
  induction p generalizing c with
  | ret a => exact himp c a h
  | stuck => trivial
  | call e k ih => exact ⟨h.1, fun r hr => ih r (h.2 r hr)⟩

theorem of_all {P : E → Prop} {p : Program E R α} (hp : p.All P)
    (hadm : ∀ e, P e → D.admits c e) (hnext : ∀ e r, P e → D.next c e r = c)
    (hpost : ∀ a, post c a) : Abides D post c p := by
  induction p with
  | ret a => exact hpost a
  | stuck => trivial
  | call e k ih =>
    refine ⟨hadm e hp.1, fun r _ => ?_⟩
    rw [hnext e r hp.1]
    exact ih r (hp.2 r)

end Abides

end Programs
