import Mathlib.Logic.Relation
import Mathlib.Logic.Function.Basic
import Mathlib.Data.List.Basic

/-!
Labelled transition systems and their finite runs. A run is built at its end,
so an induction over it meets the last step first, and a step invariant becomes
a run invariant by one induction done here. Conditions on the steps of a run
are conditions on the step relation: `Where step C` keeps the steps that meet C.
-/
namespace Transitions

variable {σ ℓ σ' ℓ' : Type*}

/-- The steps labelled `ls`, in that order, lead from `s` to `t`. -/
inductive Run (step : σ → ℓ → σ → Prop) (s : σ) : List ℓ → σ → Prop
  | nil : Run step s [] s
  | snoc {ls : List ℓ} {m : σ} {a : ℓ} {t : σ} :
      Run step s ls m → step m a t → Run step s (ls ++ [a]) t

/-- The steps of a system that satisfy a further condition. -/
def Where (step : σ → ℓ → σ → Prop) (C : σ → ℓ → σ → Prop) (s : σ) (a : ℓ) (t : σ) : Prop :=
  step s a t ∧ C s a t

/-- A step given by a partial function of the state and the label. -/
def Computes (next : σ → ℓ → Option σ) (s : σ) (a : ℓ) (t : σ) : Prop := next s a = some t

section Runs
variable {step : σ → ℓ → σ → Prop} {s m t : σ} {ls ks : List ℓ} {a : ℓ}

theorem Run.single (h : step s a t) : Run step s [a] t := Run.snoc Run.nil h

theorem Run.append (h : Run step s ls m) (k : Run step m ks t) : Run step s (ls ++ ks) t := by
  induction k with
  | nil => simpa using h
  | snoc _ hstep ih =>
    rw [← List.append_assoc]
    exact Run.snoc ih hstep

theorem Run.cons (h : step s a m) (k : Run step m ks t) : Run step s (a :: ks) t :=
  (Run.single h).append k

theorem Run.mono {step' : σ → ℓ → σ → Prop} (himp : ∀ s a t, step s a t → step' s a t)
    (h : Run step s ls t) : Run step' s ls t := by
  induction h with
  | nil => exact Run.nil
  | snoc _ hstep ih => exact Run.snoc ih (himp _ _ _ hstep)

/-- What holds at the start and is kept by every step holds at the end of every run. -/
theorem Run.invariant {I : σ → Prop} (h0 : I s)
    (hstep : ∀ s a t, I s → step s a t → I t) (h : Run step s ls t) : I t := by
  induction h with
  | nil => exact h0
  | snoc _ hs ih => exact hstep _ _ _ ih hs

theorem Run.traceInvariant {I : List ℓ → σ → Prop} (h0 : I [] s)
    (hstep : ∀ ls s a t, I ls s → step s a t → I (ls ++ [a]) t)
    (h : Run step s ls t) : I ls t := by
  induction h with
  | nil => exact h0
  | snoc _ hs ih => exact hstep _ _ _ _ ih hs

theorem Run.split (h : Run step s (ls ++ ks) t) : ∃ m, Run step s ls m ∧ Run step m ks t := by
  generalize hall : ls ++ ks = all at h
  induction h generalizing ks with
  | nil =>
    obtain ⟨rfl, rfl⟩ := List.append_eq_nil_iff.mp hall
    exact ⟨s, .nil, .nil⟩
  | snoc hrun hstep ih =>
    rcases List.eq_nil_or_concat ks with rfl | ⟨ks, b, rfl⟩
    · rw [List.append_nil] at hall
      exact ⟨_, hall ▸ hrun.snoc hstep, .nil⟩
    · rw [List.concat_eq_append, ← List.append_assoc] at hall
      obtain ⟨rfl, hb⟩ := List.append_inj' hall rfl
      obtain rfl := (List.cons.inj hb).1
      obtain ⟨m', hfirst, hrest⟩ := ih rfl
      rw [List.concat_eq_append]
      exact ⟨m', hfirst, hrest.snoc hstep⟩

theorem Run.last (h : Run step s (ls ++ [a]) t) : ∃ m, Run step s ls m ∧ step m a t := by
  generalize hall : ls ++ [a] = all at h
  cases h with
  | nil => exact absurd hall (List.append_ne_nil_of_right_ne_nil _ (List.cons_ne_nil _ _))
  | snoc hrun hstep =>
    obtain ⟨rfl, ha⟩ := List.append_inj' hall rfl
    obtain rfl := (List.cons.inj ha).1
    exact ⟨_, hrun, hstep⟩

theorem Run.split_cons (h : Run step s (ls ++ a :: ks) t) :
    ∃ m m', Run step s ls m ∧ step m a m' ∧ Run step m' ks t := by
  rw [List.append_cons] at h
  obtain ⟨m', hfirst, hrest⟩ := h.split
  obtain ⟨m, hrun, hstep⟩ := hfirst.last
  exact ⟨m, m', hrun, hstep, hrest⟩

theorem Run.where_of_mem {P : ℓ → Prop} (h : Run step s ls t) (hP : ∀ a ∈ ls, P a) :
    Run (Where step fun _ a _ => P a) s ls t := by
  induction h with
  | nil => exact .nil
  | snoc _ hstep ih =>
    refine (ih fun a ha => hP a (List.mem_append_left _ ha)).snoc ⟨hstep, hP _ ?_⟩
    exact List.mem_append_right _ (List.mem_singleton_self _)

/-- Every label of a run meets a condition on the labels before it. -/
def Past (C : List ℓ → ℓ → Prop) (ls : List ℓ) : Prop := ∀ ks a rest, ls = ks ++ a :: rest → C ks a

theorem past_nil (C : List ℓ → ℓ → Prop) : Past C [] := by
  intro ks a rest h
  exact absurd h.symm (List.append_ne_nil_of_right_ne_nil _ (List.cons_ne_nil _ _))

theorem Past.snoc {C : List ℓ → ℓ → Prop} (h : Past C ls) (ha : C ls a) : Past C (ls ++ [a]) := by
  intro ks b rest heq
  rcases List.eq_nil_or_concat rest with rfl | ⟨rest, c, rfl⟩
  · obtain ⟨rfl, hb⟩ := List.append_inj' heq rfl
    obtain rfl := (List.cons.inj hb).1
    exact ha
  · rw [List.concat_eq_append, ← List.cons_append, ← List.append_assoc] at heq
    exact h ks b rest (List.append_inj' heq rfl).1

end Runs

/-- A forward simulation. Each concrete step is matched by finitely many abstract
ones, so every concrete run is matched by an abstract one. -/
theorem Run.simulate {step : σ → ℓ → σ → Prop} {step' : σ' → ℓ' → σ' → Prop}
    {R : σ → σ' → Prop} {s t : σ} {ls : List ℓ} {s' : σ'}
    (hstep : ∀ s a t s', R s s' → step s a t → ∃ ks t', Run step' s' ks t' ∧ R t t')
    (h0 : R s s') (h : Run step s ls t) : ∃ ks t', Run step' s' ks t' ∧ R t t' := by
  induction h with
  | nil => exact ⟨[], s', Run.nil, h0⟩
  | snoc _ hs ih =>
    obtain ⟨ks, m', hrun, hR⟩ := ih
    obtain ⟨ks', t', hrun', hR'⟩ := hstep _ _ _ _ hR hs
    exact ⟨ks ++ ks', t', hrun.append hrun', hR'⟩

/-- A forward simulation in which the systems take their steps together. -/
theorem Run.lockstep {step : σ → ℓ → σ → Prop} {step' : σ' → ℓ → σ' → Prop}
    {R : σ → σ' → Prop} {s t : σ} {ls : List ℓ} {s' : σ'}
    (hstep : ∀ s a t s', R s s' → step s a t → ∃ t', step' s' a t' ∧ R t t')
    (h0 : R s s') (h : Run step s ls t) : ∃ t', Run step' s' ls t' ∧ R t t' := by
  induction h with
  | nil => exact ⟨s', Run.nil, h0⟩
  | snoc _ hs ih =>
    obtain ⟨m', hrun, hR⟩ := ih
    obtain ⟨t', hstep', hR'⟩ := hstep _ _ _ _ hR hs
    exact ⟨t', hrun.snoc hstep', hR'⟩

section Functional
variable {next : σ → ℓ → Option σ}

/-- The state after a list of labels, for a step that is a partial function. -/
def follow (next : σ → ℓ → Option σ) : σ → List ℓ → Option σ
  | s, [] => some s
  | s, a :: as => (next s a).bind fun t => follow next t as

/-- The steps of `next` from states and labels that meet a condition. -/
def guarded (next : σ → ℓ → Option σ) (C : σ → ℓ → Prop) [∀ s a, Decidable (C s a)] (s : σ)
    (a : ℓ) : Option σ :=
  if C s a then next s a else none

theorem run_of_follow {s t : σ} {ls : List ℓ} (h : follow next s ls = some t) :
    Run (Computes next) s ls t := by
  induction ls generalizing s with
  | nil =>
    cases h
    exact Run.nil
  | cons a as ih =>
    obtain ⟨m, hm, hrest⟩ := Option.bind_eq_some_iff.mp h
    exact Run.cons hm (ih hrest)

theorem follow_of_guarded {C : σ → ℓ → Prop} [∀ s a, Decidable (C s a)] {s t : σ} {ls : List ℓ}
    (h : follow (guarded next C) s ls = some t) : follow next s ls = some t := by
  induction ls generalizing s with
  | nil => exact h
  | cons a as ih =>
    obtain ⟨m, hm, hrest⟩ := Option.bind_eq_some_iff.mp h
    obtain ⟨-, hm⟩ := Option.ite_none_right_eq_some.mp hm
    exact Option.bind_eq_some_iff.mpr ⟨m, hm, ih hrest⟩

theorem run_of_guarded {C : σ → ℓ → Prop} [∀ s a, Decidable (C s a)] {s t : σ} {ls : List ℓ}
    (h : follow (guarded next C) s ls = some t) :
    Run (Where (Computes next) fun s a _ => C s a) s ls t := by
  refine (run_of_follow h).mono fun s a t hstep => ?_
  obtain ⟨hC, hnext⟩ := Option.ite_none_right_eq_some.mp hstep
  exact ⟨hnext, hC⟩

end Functional

theorem update_eq_iff {ι : Type*} [DecidableEq ι] {f : ι → σ} {i j : ι} {x y : σ} :
    Function.update f i x j = y ↔ j = i ∧ x = y ∨ j ≠ i ∧ f j = y := by
  rw [Function.update_apply, ite_eq_iff]

end Transitions
