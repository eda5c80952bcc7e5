import NervFS.Lib.Programs
import NervFS.Lib.Transitions
import Mathlib.Logic.Relation

/-!
One program among others. Between its calls, and after the last one, the others may take
steps of their own, which it does not notice; a call is answered by the state as it is then.
An assertion that is to hold at the next call has to survive the steps of the others, so a
proof about the program states what each of its points is entitled to.
-/
namespace Programs

open Transitions Relation

variable {E : Type} {R : E → Type} {α β σ : Type}

/-- A step of the others, or a call of the program with its answer. -/
inductive Weave (env : σ → σ → Prop) (act : (e : E) → σ → R e → σ → Prop) :
    Program E R α × σ → Bool → Program E R α × σ → Prop
  | others {p : Program E R α} {s s' : σ} (h : env s s') : Weave env act (p, s) false (p, s')
  | call {e : E} {k : R e → Program E R α} {s s' : σ} {r : R e} (h : act e s r s') :
    Weave env act (.call e k, s) true (k r, s')

/-- Whatever the others do, `Q` holds when the program has returned, and from then on. -/
def Endures (env : σ → σ → Prop) (act : (e : E) → σ → R e → σ → Prop) (Q : α → σ → Prop) :
    Program E R α → σ → Prop
  | .ret a, s => ∀ s', ReflTransGen env s s' → Q a s'
  | .stuck, _ => True
  | .call e k, s => ∀ s', ReflTransGen env s s' → ∀ r s'', act e s' r s'' →
      Endures env act Q (k r) s''

section Rules
variable {env : σ → σ → Prop} {act : (e : E) → σ → R e → σ → Prop} {Q : α → σ → Prop}
variable {p : Program E R α} {s s' : σ}

theorem Endures.stable (h : Endures env act Q p s) (hs : ReflTransGen env s s') :
    Endures env act Q p s' := by
  cases p with
  | ret a => exact fun t ht => h t (hs.trans ht)
  | stuck => trivial
  | call e k => exact fun t ht => h t (hs.trans ht)

theorem survives {I : σ → Prop} (hI : ∀ s s', env s s' → I s → I s')
    (h : ReflTransGen env s s') (hs : I s) : I s' := by
  induction h with
  | refl => exact hs
  | tail _ hstep ih => exact hI _ _ hstep ih

/-- A call at which an assertion that survives the others is known. -/
theorem endures_call {I : σ → Prop} (hI : ∀ s s', env s s' → I s → I s') {e : E}
    {k : R e → Program E R α} (hs : I s)
    (h : ∀ s r s', I s → act e s r s' → Endures env act Q (k r) s') :
    Endures env act Q (Program.perform e >>= k) s := by
  intro s' hmoved r s'' hact
  exact h s' r s'' (survives hI hmoved hs) hact

theorem endures_ret {I : σ → Prop} (hI : ∀ s s', env s s' → I s → I s') {a : α} (hs : I s)
    (h : ∀ s, I s → Q a s) : Endures env act Q (.ret a) s := by
  intro s' hmoved
  exact h s' (survives hI hmoved hs)

theorem endures_bind {Q : β → σ → Prop} {f : α → Program E R β}
    (h : Endures env act (fun a s => Endures env act Q (f a) s) p s) :
    Endures env act Q (p >>= f) s := by
  induction p generalizing s with
  | ret a => exact h s .refl
  | stuck => trivial
  | call e k ih => exact fun s' hmoved r s'' hact => ih r (h s' hmoved r s'' hact)

/-- What a program is entitled to holds in every run in which the others take part. -/
theorem Endures.run {q : Program E R α} {t : σ} (h : Endures env act Q p s) {ls : List Bool}
    (hrun : Run (Weave env act) (p, s) ls (q, t)) : Endures env act Q q t := by
  refine hrun.invariant (I := fun x => Endures env act Q x.1 x.2) h ?_
  rintro x a y hx hstep
  cases hstep with
  | others henv => exact hx.stable (ReflTransGen.single henv)
  | call hact => exact hx _ .refl _ _ hact

theorem Endures.returned {a : α} {t : σ} (h : Endures env act Q p s) {ls : List Bool}
    (hrun : Run (Weave env act) (p, s) ls (.ret a, t)) : Q a t :=
  h.run hrun t .refl

/-- A run against answers that first let the others take some steps. -/
theorem weave_of_run {handle : (e : E) → σ → Option (R e × σ)}
    (hact : ∀ e s r s', handle e s = some (r, s') → ∃ m, ReflTransGen env s m ∧ act e m r s')
    {a : α} {t : σ} (h : p.run handle s = some (a, t)) :
    ∃ ls, Run (Weave env act) (p, s) ls (.ret a, t) := by
  have hmoves : ∀ {p : Program E R α} {s m}, ReflTransGen env s m →
      ∃ ls, Run (Weave env act) (p, s) ls (p, m) := by
    intro p s m hm
    induction hm with
    | refl => exact ⟨[], .nil⟩
    | tail _ hstep ih =>
      obtain ⟨ls, hrun⟩ := ih
      exact ⟨ls ++ [false], hrun.snoc (.others hstep)⟩
  induction p generalizing s with
  | ret b =>
    cases h
    exact ⟨[], .nil⟩
  | stuck => cases h
  | call e k ih =>
    obtain ⟨⟨r, s'⟩, hreply, hrest⟩ := Option.bind_eq_some_iff.mp h
    obtain ⟨m, hm, hanswer⟩ := hact e s r s' hreply
    obtain ⟨ls, hrun⟩ := hmoves (p := .call e k) hm
    obtain ⟨ks, hrun'⟩ := ih r hrest
    exact ⟨ls ++ true :: ks, hrun.append (.cons (.call hanswer) hrun')⟩

end Rules

end Programs
