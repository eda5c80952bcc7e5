import NervFS.Lib.Programs

/-!
The runs of a program against an environment that may answer as it likes. A run is the
list of its calls with their replies, and an account of it is kept by a function that
reads them in order and may object to one.
-/
namespace Programs

variable {E : Type} {R : E → Type} {α β κ : Type}

/-- A call with its reply. -/
abbrev Event (E : Type) (R : E → Type) := (e : E) × R e

namespace Program

/-- The program makes the calls of the list, is answered as the list says, and what is
left of it is the last program. -/
inductive Runs : Program E R α → List (Event E R) → Program E R α → Prop
  | nil {p : Program E R α} : Runs p [] p
  | cons {e : E} {r : R e} {k : R e → Program E R α} {tr : List (Event E R)}
    {q : Program E R α} (h : Runs (k r) tr q) : Runs (call e k) (⟨e, r⟩ :: tr) q

/-- Nothing is left to call. -/
def Ended (q : Program E R α) : Prop := q.next? = none

theorem Runs.append {p m q : Program E R α} {tr tr' : List (Event E R)} (h : Runs p tr m)
    (h' : Runs m tr' q) : Runs p (tr ++ tr') q := by
  induction h with
  | nil => exact h'
  | cons _ ih => exact Runs.cons (ih h')

theorem Runs.bind {p q : Program E R α} {tr : List (Event E R)} (h : Runs p tr q)
    (f : α → Program E R β) : Runs (p >>= f) tr (q >>= f) := by
  induction h with
  | nil => exact Runs.nil
  | cons _ ih => exact Runs.cons ih

/-- A run against a state is a run whose replies are those of the state. -/
theorem run_runs {σ : Type} {handle : (e : E) → σ → Option (R e × σ)} {p : Program E R α} {a : α}
    {s t : σ} (h : p.run handle s = some (a, t)) :
    ∃ tr, p.Runs tr (ret a) ∧ ∀ ev ∈ tr, ∃ s s', handle ev.1 s = some (ev.2, s') := by
  induction p generalizing s with
  | ret b =>
    cases h
    refine ⟨[], Runs.nil, ?_⟩
    intro ev hev
    cases hev
  | stuck => cases h
  | call e k ih =>
    obtain ⟨reply, hreply, hrest⟩ := Option.bind_eq_some_iff.mp h
    obtain ⟨r, s'⟩ := reply
    obtain ⟨tr, hruns, hall⟩ := ih r hrest
    refine ⟨⟨e, r⟩ :: tr, Runs.cons hruns, ?_⟩
    intro ev hev
    rcases List.mem_cons.mp hev with rfl | hev
    · exact ⟨s, s', hreply⟩
    · exact hall ev hev

end Program

open Program

/-- Every reply of the run is one that `assume` counts on at its point of the program. -/
def Meets (assume : Program E R α → Event E R → Prop) (p : Program E R α)
    (tr : List (Event E R)) : Prop :=
  ∀ tr₁ ev tr₂ m, tr = tr₁ ++ ev :: tr₂ → p.Runs tr₁ m → assume m ev

theorem Meets.tail {assume : Program E R α → Event E R → Prop} {e : E} {r : R e}
    {k : R e → Program E R α} {tr : List (Event E R)} (h : Meets assume (call e k) (⟨e, r⟩ :: tr)) :
    Meets assume (k r) tr := by
  intro tr₁ ev tr₂ m htr hrun
  apply h (⟨e, r⟩ :: tr₁) ev tr₂ m
  · rw [htr]
    rfl
  · exact Runs.cons hrun

/-- Whatever the replies that are counted on, `step` objects to no call of the program, and
the account is as `post` demands where the program returns and as `bad` says where its
behaviour is undefined. -/
def Keeps (assume : Program E R α → Event E R → Prop) (step : κ → Event E R → Option κ)
    (bad : κ → Prop) (post : κ → α → Prop) : κ → Program E R α → Prop
  | c, ret a => post c a
  | c, stuck => bad c
  | c, call e k => ∀ r, assume (call e k) ⟨e, r⟩ →
      ∃ c', step c ⟨e, r⟩ = some c' ∧ Keeps assume step bad post c' (k r)

/-- Nothing is assumed of the replies. -/
def anyReply : Program E R α → Event E R → Prop := fun _ _ => True

namespace Keeps
variable {assume : Program E R α → Event E R → Prop} {step : κ → Event E R → Option κ}
  {bad : κ → Prop} {post : κ → α → Prop} {c : κ}

theorem call {e : E} {k : R e → Program E R α}
    (h : ∀ r, ∃ c', step c ⟨e, r⟩ = some c' ∧ Keeps assume step bad post c' (k r)) :
    Keeps assume step bad post c (Program.call e k) :=
  fun r _ => h r

theorem mono {post' : κ → α → Prop} {p : Program E R α} (h : Keeps assume step bad post c p)
    (himp : ∀ c a, post c a → post' c a) : Keeps assume step bad post' c p := by
  induction p generalizing c with
  | ret a => exact himp c a h
  | stuck => exact h
  | call e k ih =>
    intro r hr
    obtain ⟨c', hc, hk⟩ := h r hr
    exact ⟨c', hc, ih r hk⟩

theorem bind {assume : Program E R β → Event E R → Prop} {p : Program E R α}
    {f : α → Program E R β} {post : κ → β → Prop}
    (h : Keeps anyReply step bad (fun c a => Keeps assume step bad post c (f a)) c p) :
    Keeps assume step bad post c (p >>= f) := by
  induction p generalizing c with
  | ret a => exact h
  | stuck => exact h
  | call e k ih =>
    intro r _
    obtain ⟨c', hc, hk⟩ := h r trivial
    exact ⟨c', hc, ih r hk⟩

theorem runs {p q : Program E R α} {tr : List (Event E R)} (h : Keeps assume step bad post c p)
    (hrun : p.Runs tr q) (hmeets : Meets assume p tr) :
    ∃ c', tr.foldlM step c = some c' ∧ Keeps assume step bad post c' q := by
  induction hrun generalizing c with
  | nil => exact ⟨c, rfl, h⟩
  | @cons e r k tr q _ ih =>
    obtain ⟨c', hc, hk⟩ := h r (hmeets [] ⟨e, r⟩ tr _ rfl Runs.nil)
    obtain ⟨c'', hfold, hq⟩ := ih hk hmeets.tail
    refine ⟨c'', ?_, hq⟩
    rw [List.foldlM_cons, hc]
    exact hfold

end Keeps

end Programs
