import NervFS.Holding

/-!
Any interleaving of the handlers of one server process is as good as a serial one. The
lock table holds a name for a handler exactly while the handler is in the section of
that name, so the run is a run of a keyed store, whose runs are serializable.
-/
namespace NervFS.Serialization

open Programs KeyedStore KeyedStore.Semantics Transitions Calls Protocol FileOps Handlers
open Kernel Workers Holding

variable {T : Type} [Fintype T]

/-- The state of the process, seen as a configuration of the keyed store. -/
structure Refines (host : Host) (s : Workers.State Unit T)
    (c : Config Call Reply Bytes Node Local T Unit) : Prop where
  store : c.store = s.storage
  prog : ∀ t, (c.thread t).prog = (s.service t).prog
  loc : ∀ t, (c.thread t).loc = (s.service t).loc
  phase : ∀ t, (c.thread t).phase = phaseOf host (s.service t).log
  locked : Locked host one s

variable {host : Host} {s s' : Workers.State Unit T}
variable {c c' : Config Call Reply Bytes Node Local T Unit}
variable {t : T} {malloc : Option ℕ} {e : Call} {k : Reply e → Prog Unit} {r : Reply e}
variable {l : Local}

/-- A call answered by the process and by the store with the same reply. -/
theorem Refines.advance [DecidableEq T] (hR : Refines host s c)
    (ha : Answers host one s t malloc e k r l s') (hL : Locked host one s')
    (hstore : c'.store = s'.storage)
    (hthread : c'.thread = Function.update c.thread t
      ⟨k r, l, (semantics host).phaseAfter (c.thread t).phase e⟩) : Refines host s' c' := by
  refine ⟨hstore, fun u => ?_, fun u => ?_, fun u => ?_, hL⟩ <;>
    rw [hthread, ha.service] <;> by_cases hu : u = t
  · subst hu
    rw [Function.update_self, Function.update_self]
  · rw [Function.update_of_ne hu, Function.update_of_ne hu, hR.prog]
  · subst hu
    rw [Function.update_self, Function.update_self]
  · rw [Function.update_of_ne hu, Function.update_of_ne hu, hR.loc]
  · subst hu
    rw [Function.update_self, Function.update_self, hR.phase, phaseOf_snoc]
  · rw [Function.update_of_ne hu, Function.update_of_ne hu, hR.phase]

theorem Refines.answers [DecidableEq T] (hR : Refines host s c)
    (ha : Answers host one s t malloc e k r l s') (hL : Locked host one s')
    (hgranted : Granted host one s t e) :
    ∃ ls c', Run (Step (semantics host)) c ls c' ∧ Refines host s' c' ∧
      s'.acquired = s.acquired ++ acquisitions ls := by
  have hp : (c.thread t).prog = .call e k := (hR.prog t).trans ha.prog
  have hsec : (semantics host).Sectioned (c.thread t).phase (.call e k) := by
    rw [hR.phase, ← ha.prog]
    exact hR.locked.sectioned t
  have hacq := ha.acquired
  have hhandled := ha.handled
  rw [← hR.store, ← hR.loc] at hhandled
  cases hr : role host e with
  | own =>
    obtain ⟨rfl, hstore, rfl⟩ := of_handle_idle (idle_own hr) hhandled
    refine ⟨_, _, .single (Step.own hp hr), hR.advance ha hL hstore ?_, ?_⟩
    · rw [phaseAfter_same (by simp [semantics, hr]) (by simp [semantics, hr])]
      rfl
    · simpa [acquires, hr, acquisitions] using hacq
  | access name m =>
    obtain ⟨rfl, hstore, rfl⟩ := of_handle_access (M := semantics host) hr hhandled
    refine ⟨_, _, .single (Step.access hp hr), hR.advance ha hL hstore ?_, ?_⟩
    · rw [phaseAfter_same (by simp [semantics, hr]) (by simp [semantics, hr])]
    · simpa [acquires, hr, acquisitions] using hacq
  | release name m =>
    obtain ⟨rfl, hstore, rfl⟩ := of_handle_idle (idle_release hr) hhandled
    obtain ⟨hph, -⟩ := sectioned_release hsec hr (c.thread t).loc
    refine ⟨_, _, .single (Step.release hp hr), hR.advance ha hL hstore ?_, ?_⟩
    · rw [hph, phaseAfter_release hr]
      rfl
    · simpa [acquires, hr, acquisitions] using hacq
  | acquire name m =>
    obtain ⟨rfl, hstore, rfl⟩ := of_handle_idle (idle_acquire hr) hhandled
    obtain ⟨hph, -, -⟩ := sectioned_acquire hsec hr (c.thread t).loc
    have hfree : ∀ u m', (c.thread u).phase = .inside name m' → m = .shared ∧ m' = .shared :=
      fun u m' hu => hgranted name m hr u m' rfl (hR.phase u ▸ hu)
    refine ⟨_, _, .single (Step.acquire hp hr hfree), hR.advance ha hL hstore ?_, ?_⟩
    · rw [hph, phaseAfter_acquire hr]
      rfl
    · simpa [acquires, hr, acquisitions] using hacq
  | other => exact absurd hr (sectioned_not_other (M := semantics host) hsec)

/-- What a step of the process is in the keyed store: nothing while a request waits for a
name, and one step otherwise. -/
theorem Refines.step [DecidableEq T] (hR : Refines host s c) {a : Label T}
    (h : ProcessStep host s a s') :
    ∃ ls c', Run (Step (semantics host)) c ls c' ∧ Refines host s' c' ∧
      s'.acquired = s.acquired ++ acquisitions ls := by
  obtain ⟨hL, ⟨p, locks, rfl⟩ | ⟨t, malloc, e, k, r, l, -, ha, hgranted⟩⟩ :=
    hR.locked.step h.1 h.2
  · refine ⟨[], c, .nil, ⟨hR.store, hR.prog, hR.loc, hR.phase, hL⟩, ?_⟩
    simp [acquisitions, State.setLocks]
  · exact hR.answers ha hL hgranted

/-- Every run of the process is a run of the keyed store with the same acquisitions. -/
theorem process_refines [DecidableEq T] {request : T → Request}
    (hok : ∀ t, (request t).Complete ∧ (request t).NamesFile) {σ₀ : Bytes → Node}
    {ls : List (Label T)} (h : Run (ProcessStep host) (start host request σ₀) ls s) :
    ∃ ks c, Run (Step (semantics host))
        (initial (fun t => ((request t).prog host, (request t).loc)) σ₀) ks c ∧
      Refines host s c ∧ s.acquired = acquisitions ks := by
  refine h.invariant (I := fun s => ∃ ks c, Run (Step (semantics host))
    (initial (fun t => ((request t).prog host, (request t).loc)) σ₀) ks c ∧
      Refines host s c ∧ s.acquired = acquisitions ks)
    ⟨[], _, .nil, ⟨rfl, fun _ => rfl, fun _ => rfl, fun _ => rfl,
      start_locked host one hok σ₀⟩, rfl⟩ ?_
  rintro s a s' ⟨ks, c, hrun, hR, hacq⟩ hstep
  obtain ⟨ks', c', hrun', hR', hacq'⟩ := hR.step hstep
  exact ⟨ks ++ ks', c', hrun.append hrun', hR', by rw [hacq', hacq, acquisitions_append]⟩

end NervFS.Serialization
