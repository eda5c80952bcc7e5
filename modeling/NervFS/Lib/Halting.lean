import NervFS.Lib.Programs
import NervFS.Lib.Transitions
import Mathlib.Data.DFinsupp.WellFounded

/-!
Schedules without an end. A rank that falls at every step bounds the runs, and steps that
are exempt from it must come again and again in a schedule that never ends. Programs bring
a rank along: a program is a finite tree, so it can be answered finitely often, and so can
the programs of finitely many threads, in whatever order they are answered.
-/
namespace Transitions

variable {σ ℓ ρ : Type*} {step : σ → ℓ → σ → Prop}

/-- The schedule goes from state to state by steps, without an end. -/
def Endless (step : σ → ℓ → σ → Prop) (state : ℕ → σ) (label : ℕ → ℓ) : Prop :=
  ∀ n, step (state n) (label n) (state (n + 1))

theorem Endless.invariant {I : σ → Prop} {state : ℕ → σ} {label : ℕ → ℓ}
    (h : Endless step state label) (h0 : I (state 0))
    (hstep : ∀ s a t, I s → step s a t → I t) (n : ℕ) : I (state n) := by
  induction n with
  | zero => exact h0
  | succ n ih => exact hstep _ _ _ ih (h n)

/-- When every step lowers a rank unless its label is exempt, no schedule goes on for ever
with finitely many exempt steps. -/
theorem Endless.recurs {I : σ → Prop} {r : ρ → ρ → Prop} {rank : σ → ρ} {exempt : ℓ → Prop}
    (hwf : WellFounded r) (hstep : ∀ s a t, I s → step s a t → I t)
    (hrank : ∀ s a t, I s → step s a t → ¬ exempt a → r (rank t) (rank s))
    {state : ℕ → σ} {label : ℕ → ℓ} (h : Endless step state label) (h0 : I (state 0)) (start : ℕ) :
    ∃ n, start ≤ n ∧ exempt (label n) := by
  by_contra hnone
  have hfall : ∀ x n, start ≤ n → rank (state n) = x → False := by
    intro x
    induction x using hwf.induction with
    | _ x ih =>
      intro n hn hx
      have hlower : r (rank (state (n + 1))) (rank (state n)) :=
        hrank _ _ _ (h.invariant h0 hstep n) (h n) fun hexempt => hnone ⟨n, hn, hexempt⟩
      exact ih _ (hx ▸ hlower) (n + 1) (Nat.le_succ_of_le hn) rfl
  exact hfall _ start (Nat.le_refl start) rfl

end Transitions

namespace Programs

variable {E : Type} {R : E → Type} {α ι : Type}

namespace Program

/-- What is left of a program whose next call has been answered. -/
inductive Rest : Program E R α → Program E R α → Prop
  | answered (e : E) (k : R e → Program E R α) (r : R e) : Rest (k r) (call e k)

theorem rest_wellFounded : WellFounded (Rest (E := E) (R := R) (α := α)) := by
  refine ⟨fun p => ?_⟩
  induction p with
  | ret a => exact ⟨_, nofun⟩
  | stuck => exact ⟨_, nofun⟩
  | call e k ih =>
    refine ⟨_, fun q hq => ?_⟩
    cases hq with
    | answered e k r => exact ih r

end Program

open Program

/-- One program of a family is answered. -/
def Advances (q p : ι → Program E R α) : Prop :=
  ∃ i, Rest (q i) (p i) ∧ ∀ j, j ≠ i → q j = p j

/-- The programs of a finite family are answered finitely often, in any order. -/
theorem advances_wellFounded [Finite ι] :
    WellFounded (Advances (E := E) (R := R) (α := α) (ι := ι)) := by
  have hlex : ∀ q p : ι → Program E R α, Advances q p →
      Pi.Lex (WellOrderingRel (α := ι)) (fun {_} => Rest) q p := by
    rintro q p ⟨i, hrest, hsame⟩
    refine ⟨i, fun j hj => hsame j ?_, hrest⟩
    rintro rfl
    exact irrefl (r := WellOrderingRel) j hj
  exact Subrelation.wf (hlex _ _) (Pi.Lex.wellFounded _ fun _ => rest_wellFounded)

/-- A program is answered, or the programs stay as they are and a number falls. -/
def Falls : (ι → Program E R α) × ℕ → (ι → Program E R α) × ℕ → Prop :=
  Prod.Lex Advances (· < ·)

theorem falls_wellFounded [Finite ι] :
    WellFounded (Falls (E := E) (R := R) (α := α) (ι := ι)) :=
  WellFounded.prod_lex advances_wellFounded Nat.lt_wfRel.wf

end Programs
