import NervFS.Lib.Transitions
import Mathlib.Data.List.Nodup
import Mathlib.Data.Nat.Notation

/-!
Tokens that are issued one after the other and that owners hold, hand over and close.
A token is reached through a number, and the number of a closed token may be issued
again. Every open token has exactly one owner, and only open tokens have one.
-/
namespace Ledger

open Transitions

/-- What an owner holds: a number, and the token that it was issued for. -/
structure Handle where
  num : ℕ
  token : ℕ
  deriving DecidableEq

/-- `open_` is the token that a number refers to, `closed` the tokens closed so far. -/
@[ext] structure State (O : Type) where
  holder : O → Option Handle
  open_ : ℕ → Option ℕ
  issued : ℕ
  closed : List ℕ

variable {O : Type} [DecidableEq O]

/-- `o` receives a new token under a number. -/
def State.issue (s : State O) (o : O) (n : ℕ) : State O where
  holder := Function.update s.holder o (some ⟨n, s.issued⟩)
  open_ := Function.update s.open_ n (some s.issued)
  issued := s.issued + 1
  closed := s.closed

/-- `o` hands over what it holds to `o'`. -/
def State.pass (s : State O) (o o' : O) (d : Handle) : State O :=
  { s with holder := Function.update (Function.update s.holder o none) o' (some d) }

/-- `o` closes what it holds. -/
def State.close (s : State O) (o : O) (d : Handle) : State O where
  holder := Function.update s.holder o none
  open_ := Function.update s.open_ d.num none
  issued := s.issued
  closed := s.closed ++ [d.token]

structure Inv (s : State O) : Prop where
  live : ∀ o d, s.holder o = some d → s.open_ d.num = some d.token
  exclusive : ∀ o o' d d', s.holder o = some d → s.holder o' = some d' →
    d.token = d'.token → o = o'
  owned : ∀ n c, s.open_ n = some c → ∃ o, s.holder o = some ⟨n, c⟩
  fresh : ∀ n c, s.open_ n = some c → c < s.issued ∧ c ∉ s.closed
  accounted : ∀ c < s.issued, c ∈ s.closed ∨ ∃ n, s.open_ n = some c
  past : ∀ c ∈ s.closed, c < s.issued
  once : s.closed.Nodup

variable {s : State O} {o o' : O} {d d' : Handle} {n c : ℕ}

omit [DecidableEq O] in
theorem Inv.num_unique (h : Inv s) (hn : s.open_ n = some c) (hd : s.holder o = some d)
    (hc : d.token = c) : d.num = n := by
  obtain ⟨o', ho'⟩ := h.owned n c hn
  obtain rfl := h.exclusive o o' d _ hd ho' hc
  rw [hd] at ho'
  rw [Option.some.inj ho']

omit [DecidableEq O] in
theorem Inv.num_exclusive (h : Inv s) (hd : s.holder o = some d) (hd' : s.holder o' = some d')
    (hn : d.num = d'.num) : o = o' := by
  refine h.exclusive o o' d d' hd hd' ?_
  have hlive := h.live o d hd
  rw [hn, h.live o' d' hd'] at hlive
  exact (Option.some.inj hlive).symm

theorem Inv.issue (h : Inv s) (ho : s.holder o = none) (hn : s.open_ n = none) :
    Inv (s.issue o n) := by
  have hnew : ∀ o' d, s.holder o' = some d → d.token ≠ s.issued := fun o' d hd heq => by
    have hlt := (h.fresh _ _ (h.live o' d hd)).1
    omega
  constructor
  · intro o' d hd
    rcases update_eq_iff.mp hd with ⟨-, hd⟩ | ⟨-, hd⟩
    · cases hd
      exact Function.update_self ..
    · have hlive := h.live o' d hd
      have hne : d.num ≠ n := by
        rintro rfl
        rw [hn] at hlive
        cases hlive
      exact (Function.update_of_ne hne ..).trans hlive
  · intro o₁ o₂ d₁ d₂ hset₁ hset₂ heq
    rcases update_eq_iff.mp hset₁ with ⟨rfl, h₁⟩ | ⟨-, h₁⟩ <;>
      rcases update_eq_iff.mp hset₂ with ⟨rfl, h₂⟩ | ⟨-, h₂⟩
    · rfl
    · cases h₁
      exact absurd heq.symm (hnew o₂ d₂ h₂)
    · cases h₂
      exact absurd heq (hnew o₁ d₁ h₁)
    · exact h.exclusive o₁ o₂ d₁ d₂ h₁ h₂ heq
  · intro m c hset
    rcases update_eq_iff.mp hset with ⟨rfl, hm⟩ | ⟨-, hm⟩
    · cases hm
      exact ⟨o, Function.update_self ..⟩
    · obtain ⟨o', ho'⟩ := h.owned m c hm
      refine ⟨o', update_eq_iff.mpr (Or.inr ⟨?_, ho'⟩)⟩
      rintro rfl
      rw [ho] at ho'
      cases ho'
  · intro m c hset
    rcases update_eq_iff.mp hset with ⟨rfl, hm⟩ | ⟨-, hm⟩
    · cases hm
      exact ⟨Nat.lt_succ_self _, fun hc => absurd (h.past _ hc) (Nat.lt_irrefl _)⟩
    · obtain ⟨hlt, hnot⟩ := h.fresh m c hm
      exact ⟨Nat.lt_succ_of_lt hlt, hnot⟩
  · intro c hc
    rcases Nat.lt_succ_iff_lt_or_eq.mp hc with hlt | rfl
    · refine (h.accounted c hlt).imp_right fun ⟨m, hm⟩ => ⟨m, ?_⟩
      have hmn : m ≠ n := by
        rintro rfl
        rw [hn] at hm
        cases hm
      exact (Function.update_of_ne hmn ..).trans hm
    · exact Or.inr ⟨n, Function.update_self ..⟩
  · exact fun c hc => Nat.lt_succ_of_lt (h.past c hc)
  · exact h.once

theorem Inv.pass (h : Inv s) (ho : s.holder o = some d) (ho' : s.holder o' = none) :
    Inv (s.pass o o' d) := by
  have hne : o ≠ o' := by
    rintro rfl
    rw [ho] at ho'
    cases ho'
  -- Every holder after the step held the same before it, up to the exchange of the two.
  have hback : ∀ p e, (s.pass o o' d).holder p = some e →
      p = o' ∧ e = d ∨ p ≠ o' ∧ p ≠ o ∧ s.holder p = some e := by
    intro p e hp
    rcases update_eq_iff.mp hp with ⟨rfl, he⟩ | ⟨hp', he⟩
    · exact Or.inl ⟨rfl, (Option.some.inj he).symm⟩
    · rcases update_eq_iff.mp he with ⟨-, he⟩ | ⟨hpo, he⟩
      · cases he
      · exact Or.inr ⟨hp', hpo, he⟩
  refine ⟨fun p e hp => ?_, fun p q e f hp hq heq => ?_, fun n c hn => ?_, h.fresh, h.accounted,
    h.past, h.once⟩
  · rcases hback p e hp with ⟨-, rfl⟩ | ⟨-, -, he⟩
    · exact h.live o e ho
    · exact h.live p e he
  · rcases hback p e hp with ⟨rfl, rfl⟩ | ⟨-, hpo, he⟩ <;>
      rcases hback q f hq with ⟨rfl, rfl⟩ | ⟨-, hqo, hf⟩
    · rfl
    · exact absurd (h.exclusive o q e f ho hf heq).symm hqo
    · exact absurd (h.exclusive p o e f he ho heq) hpo
    · exact h.exclusive p q e f he hf heq
  · obtain ⟨p, hp⟩ := h.owned n c hn
    by_cases hpo : p = o
    · subst hpo
      rw [ho] at hp
      exact ⟨o', update_eq_iff.mpr (Or.inl ⟨rfl, hp⟩)⟩
    · have hpo' : p ≠ o' := by
        rintro rfl
        rw [ho'] at hp
        cases hp
      exact ⟨p, update_eq_iff.mpr (Or.inr ⟨hpo', update_eq_iff.mpr
        (Or.inr ⟨hpo, hp⟩)⟩)⟩

theorem Inv.close (h : Inv s) (ho : s.holder o = some d) : Inv (s.close o d) := by
  have hlive := h.live o d ho
  obtain ⟨hlt, hnot⟩ := h.fresh _ _ hlive
  have hback : ∀ m c, (s.close o d).open_ m = some c → m ≠ d.num ∧ s.open_ m = some c := by
    intro m c hm
    rcases update_eq_iff.mp hm with ⟨-, hm⟩ | hm
    · cases hm
    · exact hm
  constructor
  · intro p e hp
    rcases update_eq_iff.mp hp with ⟨-, he⟩ | ⟨hpo, he⟩
    · cases he
    · refine (Function.update_of_ne ?_ ..).trans (h.live p e he)
      exact fun heq => hpo (h.num_exclusive he ho heq)
  · intro p q e f hp hq heq
    rcases update_eq_iff.mp hp with ⟨-, he⟩ | ⟨-, he⟩
    · cases he
    · rcases update_eq_iff.mp hq with ⟨-, hf⟩ | ⟨-, hf⟩
      · cases hf
      · exact h.exclusive p q e f he hf heq
  · intro m c hm
    obtain ⟨hmn, hm⟩ := hback m c hm
    obtain ⟨p, hp⟩ := h.owned m c hm
    refine ⟨p, update_eq_iff.mpr (Or.inr ⟨?_, hp⟩)⟩
    rintro rfl
    rw [ho] at hp
    exact hmn (congrArg Handle.num (Option.some.inj hp)).symm
  · intro m c hm
    obtain ⟨hmn, hm⟩ := hback m c hm
    obtain ⟨hlt', hnot'⟩ := h.fresh m c hm
    refine ⟨hlt', fun hc => ?_⟩
    rcases List.mem_append.mp hc with hc | hc
    · exact hnot' hc
    · exact hmn (h.num_unique hm ho (List.mem_singleton.mp hc).symm).symm
  · intro c hc
    by_cases hcd : c = d.token
    · exact Or.inl (List.mem_append.mpr (Or.inr (List.mem_singleton.mpr hcd)))
    · refine (h.accounted c hc).imp (fun hm => List.mem_append.mpr (Or.inl hm)) ?_
      rintro ⟨m, hm⟩
      refine ⟨m, (Function.update_of_ne ?_ ..).trans hm⟩
      rintro rfl
      rw [hlive] at hm
      exact hcd (Option.some.inj hm).symm
  · intro c hc
    rcases List.mem_append.mp hc with hc | hc
    · exact h.past c hc
    · exact List.mem_singleton.mp hc ▸ hlt
  · refine List.nodup_append.mpr ⟨h.once, List.nodup_singleton _, fun a ha b hb => ?_⟩
    rintro rfl
    exact hnot (List.mem_singleton.mp hb ▸ ha)

omit [DecidableEq O] in
/-- When no one holds anything, every token issued has been closed. -/
theorem Inv.all_closed (h : Inv s) (hnone : ∀ o, s.holder o = none) (hc : c < s.issued) :
    c ∈ s.closed := by
  refine (h.accounted c hc).resolve_right ?_
  rintro ⟨n, hn⟩
  obtain ⟨o, ho⟩ := h.owned n c hn
  rw [hnone o] at ho
  cases ho

end Ledger
