import NervFS.Wakeups
import NervFS.Lib.Halting
import Mathlib.Algebra.BigOperators.Group.Finset.Basic
import Mathlib.Algebra.BigOperators.Group.Finset.Piecewise
import Mathlib.Data.Set.Finite.Lemmas

/-!
Every request is served to its end. A handler is a finite program, so its calls are
answered finitely often; between two answers a thread can only go to sleep, which it does
once for each wake-up. A schedule that goes on for ever is therefore kept going by spurious
wake-ups, and one that cannot go on has nobody asleep and nothing left to serve.
-/
namespace NervFS.Completion

open Programs Program KeyedStore KeyedStore.Semantics Transitions Calls FileOps LockTable Kernel
open Workers Holding Wakeups
open FailedUploads (sampleHost sampleFile)
open WholeFiles (sampleRequests)

/-- What one component of a family adds to a sum, before and after it is set. -/
theorem sum_update {ι β : Type*} [Fintype ι] [DecidableEq ι] (weight : β → ℕ) (f : ι → β) (i : ι)
    (x : β) :
    ∑ j, weight (Function.update f i x j) + weight (f i) = ∑ j, weight (f j) + weight x := by
  have hsplit : ∀ g : ι → β, ∑ j, weight (g j) =
      weight (g i) + ∑ j ∈ Finset.univ.erase i, weight (g j) :=
    fun g => (Finset.add_sum_erase _ _ (Finset.mem_univ i)).symm
  have hrest : ∑ j ∈ Finset.univ.erase i, weight (Function.update f i x j) =
      ∑ j ∈ Finset.univ.erase i, weight (f j) := by
    refine Finset.sum_congr rfl fun j hj => ?_
    rw [Function.update_of_ne (Finset.ne_of_mem_erase hj)]
  rw [hsplit, hsplit f, Function.update_self, hrest]
  omega

section Rank
variable {W T : Type}

/-- The unanswered steps that a thread can take before somebody wakes it. -/
def wakefulness : NameLocks.Phase → ℕ
  | .outside => 2
  | .woken _ _ _ => 1
  | .asleep _ _ _ => 0

def busyness : Option T → ℕ
  | none => 0
  | some _ => 1

@[simp] theorem wakefulness_asleep (kind : LockKind) (name : Bytes) (entry : Option ℕ) :
    wakefulness (.asleep kind name entry) = 0 := rfl

@[simp] theorem busyness_none : busyness (none : Option T) = 0 := rfl

@[simp] theorem busyness_some (t : T) : busyness (some t) = 1 := rfl

/-- What is left to answer, and what can still happen before the next answer. -/
def rank [Fintype W] [Fintype T] (s : Pool W T) : (T → Prog Unit) × ℕ :=
  (fun t => (s.sys.service t).prog,
    2 * s.queue.length + ∑ w, busyness (s.serving w) +
      ∑ t, wakefulness ((s.sys.locks ()).phase t))

/-- A wake-up that no release caused. -/
def Spurious : PoolLabel W → Prop
  | .wake _ => True
  | _ => False

variable [Fintype T] [DecidableEq T]

omit [Fintype T] in
theorem wakefulness_of_tests {s s' : NameLocks.State T} {a : NameLocks.Label T} {t : T}
    {kind : LockKind} {name : Bytes} (h : NameLocks.Step s a s')
    (ht : NameLocks.Tests s a t kind name) : 0 < wakefulness (s.phase t) := by
  rcases ht with ⟨malloc, rfl⟩ | ⟨rfl, entry, hphase⟩
  · have hnext := h.1
    simp only [Computes, NameLocks.next, Option.ite_none_right_eq_some] at hnext
    rw [hnext.1.1]
    exact two_pos
  · rw [hphase]
    exact one_pos

variable {host : Host} {s s' : Workers.State Unit T} {t : T} {malloc : Option ℕ}

omit [Fintype T] in
theorem advances_of_answers {e : Call} {k : Reply e → Prog Unit} {r : Reply e} {l : Local}
    (ha : Answers host one s t malloc e k r l s') :
    Advances (fun t => (s'.service t).prog) fun t => (s.service t).prog := by
  refine ⟨t, ?_, fun u hu => ?_⟩
  · dsimp only
    rw [ha.prog, ha.service, Function.update_self]
    exact Rest.answered e k r
  · dsimp only
    rw [ha.service, Function.update_of_ne hu]

theorem call_falls (hL : Locked host one s) (h : next host one s (.call t malloc) = some s')
    (halloc : malloc ≠ none) :
    Advances (fun t => (s'.service t).prog) (fun t => (s.service t).prog) ∨
      s'.service = s.service ∧ ∑ u, wakefulness ((s'.locks ()).phase u) <
        ∑ u, wakefulness ((s.locks ()).phase u) := by
  rcases next_cases h with ⟨t', locks, ha, -⟩ |
    ⟨t', malloc', e, k, name, m, locks, ha, hp, hr, hnext, hout, rfl⟩ |
    ⟨t', malloc', e, k, r, l, ha, hans⟩
  · cases ha
  · cases ha
    obtain ⟨-, -, hstep, htests⟩ := hL.tests hp hr halloc hnext
    have hawake : 0 < wakefulness ((s.locks ()).phase t) := wakefulness_of_tests hstep htests
    rcases NameLocks.step_test (hL.locks ()) hstep htests with
      ⟨-, -, entry, hphase⟩ | ⟨-, -, hphase⟩
    · have hsum := sum_update wakefulness (s.locks ()).phase t (.asleep (kindOf m) name entry)
      have hasleep : ((s.setLocks () locks).locks ()).phase =
          Function.update (s.locks ()).phase t (.asleep (kindOf m) name entry) := hphase
      rw [hasleep]
      rw [wakefulness_asleep] at hsum
      exact Or.inr ⟨rfl, by omega⟩
    · rw [hphase, Function.update_self] at hout
      exact absurd rfl hout
  · cases ha
    exact Or.inl (advances_of_answers hans)

end Rank

section Pool
variable {W T : Type} [DecidableEq W] [DecidableEq T] [Fintype T] {host : Host}

/-- What every reachable state of the pool satisfies. -/
structure Orderly (host : Host) (s : Pool W T) : Prop where
  locked : Locked host one s.sys
  justified : Justified (s.sys.locks ())
  staffed : Staffed s

theorem Orderly.step {s s' : Pool W T} {a : PoolLabel W} (ho : Orderly host s)
    (h : PoolStep host s a s') : Orderly host s' := by
  obtain ⟨hL, hj⟩ := poolStep_inv ho.locked ho.justified h
  exact ⟨hL, hj, ho.staffed.step h.1⟩

theorem step_falls [Fintype W] {s s' : Pool W T} {a : PoolLabel W} (ho : Orderly host s)
    (h : PoolStep host s a s') (ha : ¬ Spurious a) : Falls (rank s') (rank s) := by
  obtain ⟨hnext, halloc⟩ := h
  cases a with
  | take w =>
    simp only [Computes, poolNext] at hnext
    split at hnext
    · next t queue hfree hqueue =>
      cases hnext
      have hsum := sum_update busyness s.serving w (some t)
      rw [hfree, busyness_none, busyness_some] at hsum
      refine Prod.Lex.right _ ?_
      simp only [hqueue, List.length_cons]
      omega
    · cases hnext
  | call w malloc =>
    simp only [Computes, poolNext] at hnext
    split at hnext
    · next t hw =>
      obtain ⟨sys, hsys, rfl⟩ := Option.map_eq_some_iff.mp hnext
      rcases call_falls ho.locked hsys halloc with hadv | ⟨hsame, hless⟩
      · exact Prod.Lex.left _ _ hadv
      · unfold rank
        rw [hsame]
        refine Prod.Lex.right _ ?_
        dsimp only
        omega
    · cases hnext
  | wake w => exact absurd trivial ha
  | finish w =>
    simp only [Computes, poolNext] at hnext
    split at hnext
    · next t hw =>
      split at hnext
      · cases hnext
        have hsum := sum_update busyness s.serving w none
        rw [hw, busyness_none, busyness_some] at hsum
        refine Prod.Lex.right _ ?_
        dsimp only
        omega
      · cases hnext
    · cases hnext

theorem exists_fresh (table : Table) : ∃ addr, Fresh table (some addr) := by
  obtain ⟨addr, haddr⟩ := Infinite.exists_notMem_finset (table.map Entry.addr).toFinset
  refine ⟨addr, fun a ha e he => ?_⟩
  cases ha
  rintro rfl
  exact haddr (List.mem_toFinset.mpr (List.mem_map_of_mem he))

theorem call_enabled {s : Workers.State Unit T} {t : T} (hL : Locked host one s) {e : Call}
    {k : Reply e → Prog Unit} (hp : (s.service t).prog = .call e k)
    (hawake : ∀ kind name entry, (s.locks ()).phase t ≠ .asleep kind name entry) :
    ∃ addr s', next host one s (.call t (some addr)) = some s' := by
  obtain ⟨addr, hfresh⟩ := exists_fresh (s.locks ()).table
  refine ⟨addr, Option.isSome_iff_exists.mp ?_⟩
  simp only [next, hp, Workers.perform]
  cases hr : role host e with
  | own =>
    -- there is no second process whose record could be in the way
    have hfree : ¬ Blocked s.records (one t) (s.service t).loc e := by
      cases e with
      | setlkw fd kind =>
        rintro ⟨-, q, hq, -⟩
        exact hq rfl
      | _ => exact id
    rw [if_neg hfree]
    rfl
  | acquire name m =>
    rw [Option.isSome_map]
    unfold acquireLabel
    cases hphase : (s.locks (one t)).phase t with
    | outside =>
      simp only [NameLocks.next]
      rw [if_pos ⟨hphase, hfresh⟩]
      rfl
    | asleep kind n entry => exact absurd hphase (hawake kind n entry)
    | woken kind n entry =>
      simp only [NameLocks.next, hphase]
      rfl
  | release name m =>
    have hnot := hL.not_waiting hp (by rw [hr]; intro _ _ heq; cases heq) (one t)
    have hout : (s.locks (one t)).phase t = .outside := by
      cases hphase : (s.locks (one t)).phase t with
      | outside => rfl
      | asleep kind n entry => exact absurd (Or.inl hphase) (hnot kind n entry)
      | woken kind n entry => exact absurd (Or.inr hphase) (hnot kind n entry)
    simp only [Option.isSome_map, NameLocks.next]
    rw [if_pos ⟨hout, hfresh⟩]
    rfl
  | access name m => rfl
  | other =>
    exact absurd hr (sectioned_not_other (M := semantics host) (hp ▸ hL.sectioned t))

/-- A worker with an unfinished request that is not asleep can make a step. -/
theorem worker_enabled {s : Pool W T} (hL : Locked host one s.sys) {w : W} {t : T}
    (hw : s.serving w = some t) (hunfinished : (s.sys.service t).prog.result = none)
    (hawake : ∀ kind name, ¬ Asleep s t kind name) :
    ∃ a s', PoolStep host s a s' ∧ ¬ Spurious a := by
  cases hp : (s.sys.service t).prog with
  | ret r =>
    rw [hp] at hunfinished
    cases hunfinished
  | stuck =>
    have hsec := hL.sectioned t
    rw [hp] at hsec
    exact hsec.elim
  | call e k =>
    obtain ⟨addr, sys, hsys⟩ :=
      call_enabled hL hp fun kind name entry h => hawake kind name ⟨entry, h⟩
    refine ⟨.call w (some addr), { s with sys := sys }, ⟨?_, nofun⟩, id⟩
    simp only [Computes, poolNext, hw, hsys, Option.map_some]

/-- No request waits, no worker is busy, and every handler has returned. -/
structure Served (s : Pool W T) : Prop where
  queue : s.queue = []
  serving : ∀ w, s.serving w = none
  returned : ∀ t, (s.sys.service t).prog = .ret ()

/-- Where only spurious wake-ups are left, everything has been served. -/
theorem served_of_halted [Nonempty W] {s : Pool W T} (ho : Orderly host s)
    (hhalt : ∀ a s', PoolStep host s a s' → Spurious a) : Served s := by
  have hlive := live_of ho.locked ho.justified ho.staffed
  have hidle : ∀ w, s.serving w = none := by
    intro w
    cases hw : s.serving w with
    | none => rfl
    | some t =>
      exfalso
      cases hres : (s.sys.service t).prog.result with
      | some r =>
        refine hhalt (.finish w) { s with serving := Function.update s.serving w none }
          ⟨?_, trivial⟩
        simp only [Computes, poolNext, hw, result_eq_some.mp hres]
      | none =>
        obtain ⟨w', t', hw', hunfinished, hawake⟩ := hlive.progress w t hw hres
        obtain ⟨a, s', hstep, ha⟩ := worker_enabled ho.locked hw' hunfinished hawake
        exact ha (hhalt a s' hstep)
  have hempty : s.queue = [] := by
    cases hqueue : s.queue with
    | nil => rfl
    | cons t queue =>
      obtain ⟨w⟩ := ‹Nonempty W›
      refine (hhalt (.take w)
        { s with serving := Function.update s.serving w (some t), queue := queue }
        ⟨?_, trivial⟩).elim
      simp only [Computes, poolNext, hidle w, hqueue]
  refine ⟨hempty, hidle, fun t => ?_⟩
  cases hres : (s.sys.service t).prog.result with
  | some r => exact result_eq_some.mp hres
  | none =>
    rcases ho.staffed.staffed t hres with hmem | ⟨w, hw⟩
    · rw [hempty] at hmem
      cases hmem
    · rw [hidle w] at hw
      cases hw

theorem run_orderly {requests : List Request} {σ₀ : Bytes → Node}
    (hok : ∀ r ∈ requests, r.Complete ∧ r.NamesFile) {ls : List (PoolLabel W)}
    {s : Pool W (Fin requests.length)}
    (h : Run (PoolStep host) (openPool W host requests σ₀) ls s) : Orderly host s := by
  refine h.invariant ⟨?_, initial_justified, openPool_staffed host requests σ₀⟩
    fun s a s' ho hstep => ho.step hstep
  exact start_locked host one (fun t => hok _ (List.getElem_mem ..)) σ₀

/-- Every state can be left by steps that are not wake-ups until everything is served. -/
theorem exists_served [Fintype W] [Nonempty W] (s : Pool W T) (ho : Orderly host s) :
    ∃ ks u, Run (PoolStep host) s ks u ∧ (∀ a ∈ ks, ¬ Spurious a) ∧ Served u := by
  have hwf := InvImage.wf (rank (W := W) (T := T)) falls_wellFounded
  induction s using hwf.induction with
  | _ s ih =>
    by_cases hhalt : ∀ a s', PoolStep host s a s' → Spurious a
    · exact ⟨[], s, .nil, nofun, served_of_halted ho hhalt⟩
    · push Not at hhalt
      obtain ⟨a, s', hstep, ha⟩ := hhalt
      obtain ⟨ks, u, hrun, hks, hserved⟩ := ih s' (step_falls ho hstep ha) (ho.step hstep)
      exact ⟨a :: ks, u, .cons hstep hrun, List.forall_mem_cons.mpr ⟨ha, hks⟩, hserved⟩

/-- The pool serves every request to its end, in any interleaving: a schedule without an
end has spurious wake-ups again and again, a schedule that cannot go on has served
everything, and no state is a dead end. -/
theorem pool_completes [Fintype W] [Nonempty W] (host : Host) (requests : List Request)
    (σ₀ : Bytes → Node) (hok : ∀ r ∈ requests, r.Complete ∧ r.NamesFile)
    {ls : List (PoolLabel W)} {s : Pool W (Fin requests.length)}
    (h : Run (PoolStep host) (openPool W host requests σ₀) ls s) :
    (∀ state label, Endless (PoolStep host) state label → state 0 = s →
      ∀ start, ∃ n, start ≤ n ∧ Spurious (label n)) ∧
    ((∀ a s', PoolStep host s a s' → Spurious a) → Served s) ∧
    ∃ ks u, Run (PoolStep host) s ks u ∧ (∀ a ∈ ks, ¬ Spurious a) ∧ Served u := by
  have ho := run_orderly hok h
  refine ⟨fun state label hendless h0 start => ?_, served_of_halted ho, exists_served s ho⟩
  have hkeeps : ∀ (s : Pool W (Fin requests.length)) (a : PoolLabel W) s',
      Orderly host s → PoolStep host s a s' → Orderly host s' := fun _ _ _ ho => ho.step
  have hfalls : ∀ (s : Pool W (Fin requests.length)) (a : PoolLabel W) s',
      Orderly host s → PoolStep host s a s' → ¬ Spurious a → Falls (rank s') (rank s) :=
    fun _ _ _ => step_falls
  exact Endless.recurs falls_wellFounded hkeeps hfalls hendless (h0 ▸ ho) start

theorem pool_completes_sleeping :
    ∃ s, Run (PoolStep sampleHost) (openPool Bool sampleHost sampleRequests sampleFile)
        sleeping s ∧ Asleep s ⟨1, by decide⟩ .read [0x61] ∧
      ∃ ks u, Run (PoolStep sampleHost) s ks u ∧ (∀ a ∈ ks, ¬ Spurious a) ∧ Served u := by
  obtain ⟨s, hs, hphase⟩ := Option.map_eq_some_iff.mp sleeping_asleep
  have hok : ∀ r ∈ sampleRequests, r.Complete ∧ r.NamesFile := by
    unfold Request.Complete Request.NamesFile
    decide
  have hrun := run_of_guarded hs
  obtain ⟨-, -, hserved⟩ := pool_completes sampleHost sampleRequests sampleFile hok hrun
  exact ⟨s, hrun, ⟨_, hphase⟩, hserved⟩

end Pool

end NervFS.Completion
