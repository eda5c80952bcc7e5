import NervFS.WholeFiles

/-!
No wake-up is lost and the lock table deadlocks nobody. All names share one condition
variable: a thread goes to sleep only while its name is taken, a release wakes every
sleeper, and a handler never asks for a second name. So whoever sleeps waits for a
thread that is awake.
-/
namespace NervFS.Wakeups

open Programs KeyedStore KeyedStore.Semantics Transitions Calls FileOps LockTable Kernel Workers
open Holding
open FailedUploads (sampleHost sampleFile)
open WholeFiles (sampleRequests)
open NameLocks (tally not_busy_iff setHeld setHeld_apply tally_take tally_setHeld_ne)

section Table
variable {T : Type} [Fintype T]

/-- The threads asleep in an acquire function are there because the name is taken. -/
def Justified (s : NameLocks.State T) : Prop :=
  ∀ t kind name entry, s.phase t = .asleep kind name entry → Busy kind (tally s.held name)

theorem initial_justified : Justified (NameLocks.initial T) := fun _ _ _ _ h => nomatch h

theorem busy_taken {kind kind' : LockKind} {c : ℕ × ℕ} (h : Busy kind c) :
    Busy kind (taken kind' c) := by
  cases kind <;> cases kind' <;> simp only [Busy, taken] at h ⊢ <;> omega

variable [DecidableEq T] {s s' : NameLocks.State T}

theorem Justified.take (hj : Justified s) {t : T} {kind : LockKind} {name : Bytes}
    (hnone : s.held t name = none) (hfree : ¬ Busy kind (tally s.held name)) (table : Table) :
    Justified
      { table := table
        phase := Function.update s.phase t .outside
        held := setHeld s.held t name (some kind) } := by
  intro u k n entry hu
  have hut : u ≠ t := by
    rintro rfl
    simp at hu
  have hbusy := hj u k n entry (by simpa [hut] using hu)
  by_cases hn : n = name
  · subst hn
    rw [tally_take hnone hfree]
    exact busy_taken hbusy
  · rw [tally_setHeld_ne _ hn]
    exact hbusy

theorem Justified.step (hj : Justified s) (hi : NameLocks.Inv s) {a : NameLocks.Label T}
    (h : NameLocks.Step s a s') : Justified s' := by
  rcases NameLocks.step_cases hi h with
    ⟨t, kind, name, addr, table, -, -, heff, hp, hnone, rfl⟩ |
    ⟨t, kind, name, entry, -, -, rfl⟩ | ⟨t, kind, name, malloc, table, -, -, -, rfl⟩
  · rcases NameLocks.test_cases t kind (hi.extend heff) hp with
      ⟨hbusy, heq⟩ | ⟨hfree, table', -, heq⟩
    · rw [heq]
      intro u k n entry hu
      by_cases hut : u = t
      · subst hut
        simp only [Function.update_self, NameLocks.Phase.asleep.injEq] at hu
        obtain ⟨rfl, rfl, -⟩ := hu
        exact hbusy
      · exact hj u k n entry (by simpa [hut] using hu)
    · rw [heq]
      exact Justified.take (s := { s with table := table }) hj hnone hfree table'
  · intro u k n entry' hu
    by_cases hut : u = t
    · subst hut
      simp at hu
    · exact hj u k n entry' (by simpa [hut] using hu)
  · intro u k n entry hu
    -- the broadcast of a release leaves nobody asleep
    cases hphase : s.phase u <;> simp [NameLocks.Phase.broadcast, hphase] at hu

end Table

section Process
variable {P T : Type} [Fintype T] [DecidableEq P] [DecidableEq T] [Fintype P]
variable {host : Host} {proc : T → P} {s s' : Workers.State P T}

/-- A step of the handlers is a matched step of one lock table, or leaves them alone. -/
theorem locks_step (hL : Locked host proc s) {a : Workers.Label T}
    (h : next host proc s a = some s') (halloc : a.Allocates) (p : P) :
    s'.locks p = s.locks p ∨ ∃ b, NameLocks.Step (s.locks p) b (s'.locks p) := by
  have hset : ∀ {t : T} {b : NameLocks.Label T} {locks : NameLocks.State T},
      s'.locks = Function.update s.locks (proc t) locks →
      NameLocks.Step (s.locks (proc t)) b locks →
      s'.locks p = s.locks p ∨ ∃ b, NameLocks.Step (s.locks p) b (s'.locks p) := by
    intro t b locks hlocks hstep
    by_cases hp : p = proc t
    · subst hp
      rw [hlocks, Function.update_self]
      exact Or.inr ⟨b, hstep⟩
    · rw [hlocks, Function.update_of_ne hp]
      exact Or.inl rfl
  rcases next_cases h with ⟨t, locks, rfl, hnext, rfl⟩ |
    ⟨t, malloc, e, k, name, m, locks, rfl, hp, hr, hnext, -, rfl⟩ |
    ⟨t, malloc, e, k, r, l, rfl, ha⟩
  · exact hset rfl ⟨hnext, trivial⟩
  · obtain ⟨-, -, hstep, -⟩ := hL.tests hp hr halloc hnext
    exact hset rfl hstep
  · have hmoves := ha.locks
    unfold MovesLocks at hmoves
    split at hmoves
    · next name m hr =>
      obtain ⟨locks, hnext, -, hlocks⟩ := hmoves
      obtain ⟨-, -, hstep, -⟩ := hL.tests ha.prog hr halloc hnext
      exact hset hlocks hstep
    · next name m hr =>
      obtain ⟨locks, hnext, hlocks⟩ := hmoves
      obtain ⟨hph, -⟩ := sectioned_release (ha.prog ▸ hL.sectioned t) hr (s.service t).loc
      have hheld : (s.locks (proc t)).held t name = some (kindOf m) := by
        rw [hL.held_iff, modeOf_kindOf]
        exact hph
      exact hset hlocks ⟨hnext, hheld, hL.short _ t name _ hheld, halloc⟩
    · rw [hmoves]
      exact Or.inl rfl

omit [DecidableEq P] [DecidableEq T] [Fintype P] in
/-- A handler that has a name is not waiting for one and has not returned. -/
theorem holder_awake (hL : Locked host proc s) {p : P} {t : T} {name : Bytes}
    {kind : LockKind} (h : (s.locks p).held t name = some kind) :
    (∀ q kind' name' entry, ¬ NameLocks.Waiting (s.locks q) t kind' name' entry) ∧
      (s.service t).prog.result = none ∧ (s.service t).log ≠ [] := by
  obtain ⟨-, hphase⟩ := (hL.phase p t name kind).mp h
  refine ⟨fun q kind' name' entry hw => ?_, ?_, fun hlog => ?_⟩
  · obtain ⟨-, e, k, hp, hr⟩ := hL.waiting q t kind' name' entry hw
    obtain ⟨hbefore, -, -⟩ := sectioned_acquire (hp ▸ hL.sectioned t) hr (s.service t).loc
    rw [hphase] at hbefore
    cases hbefore
  · cases hprog : (s.service t).prog with
    | ret a =>
      have hsec := hL.sectioned t
      rw [hprog, hphase] at hsec
      exact absurd rfl (hsec name (modeOf kind))
    | stuck => rfl
    | call e k => rfl
  · rw [hlog] at hphase
    cases hphase

end Process

section Pool
variable {W T : Type} [DecidableEq W] [DecidableEq T] {host : Host}

/-- The requests that still wait for a worker have not begun, and every other one that has
not returned is with a worker. -/
structure Staffed (s : Pool W T) : Prop where
  queued : ∀ t ∈ s.queue, (s.sys.service t).log = [] ∧ ∀ w, s.serving w ≠ some t
  nodup : s.queue.Nodup
  staffed : ∀ t, (s.sys.service t).prog.result = none → t ∈ s.queue ∨ ∃ w, s.serving w = some t

omit [DecidableEq W] [DecidableEq T] in
theorem openPool_staffed (host : Host) (requests : List Request) (σ₀ : Bytes → Node) :
    Staffed (openPool W host requests σ₀) where
  queued _ _ := ⟨rfl, fun _ => nofun⟩
  nodup := List.nodup_finRange _
  staffed t _ := Or.inl (List.mem_finRange t)

/-- The services that a step of the process does not concern stay as they are. -/
theorem next_service {s s' : Workers.State Unit T} {t : T} {a : Workers.Label T}
    (ha : a = .wake t ∨ ∃ malloc, a = .call t malloc) (h : next host one s a = some s') {u : T}
    (hu : u ≠ t) : s'.service u = s.service u := by
  rcases next_cases h with ⟨t', locks, rfl, -, rfl⟩ |
    ⟨t', malloc, e, k, name, m, locks, rfl, -, -, -, -, rfl⟩ | ⟨t', malloc, e, k, r, l, rfl, hans⟩
  · rfl
  · rfl
  · have ht : t' = t := by
      rcases ha with h | ⟨malloc', h⟩ <;> cases h
      rfl
    rw [hans.service, Function.update_of_ne (ht ▸ hu)]

omit [DecidableEq W] in
/-- A call or a wake-up of a worker leaves the others' requests alone. -/
theorem Staffed.moves {s : Pool W T} (hs : Staffed s) {sys : Workers.State Unit T} {w : W} {t : T}
    (hw : s.serving w = some t) (hsame : ∀ u, u ≠ t → sys.service u = s.sys.service u) :
    Staffed { s with sys := sys } := by
  refine ⟨fun u hu => ?_, hs.nodup, fun u hu => ?_⟩
  · obtain ⟨hlog, hnone⟩ := hs.queued u hu
    have hut : u ≠ t := by
      rintro rfl
      exact hnone w hw
    exact ⟨by rw [hsame u hut]; exact hlog, hnone⟩
  · by_cases hut : u = t
    · exact Or.inr ⟨w, hut ▸ hw⟩
    · rw [hsame u hut] at hu
      exact hs.staffed u hu

theorem Staffed.step {s s' : Pool W T} (hs : Staffed s) {a : PoolLabel W}
    (h : poolNext host s a = some s') : Staffed s' := by
  cases a with
  | take w =>
    simp only [poolNext] at h
    split at h
    · next t queue hfree hqueue =>
      cases h
      have hnodup := hs.nodup
      rw [hqueue] at hnodup
      obtain ⟨hnot, hnodup⟩ := List.nodup_cons.mp hnodup
      refine ⟨fun u hu => ?_, hnodup, fun u hu => ?_⟩
      · obtain ⟨hlog, hnone⟩ := hs.queued u (by rw [hqueue]; exact List.mem_cons_of_mem _ hu)
        refine ⟨hlog, fun w' hw' => ?_⟩
        rcases update_eq_iff.mp hw' with ⟨-, heq⟩ | ⟨-, hw'⟩
        · cases heq
          exact hnot hu
        · exact hnone w' hw'
      · rcases hs.staffed u hu with hmem | ⟨w', hw'⟩
        · rw [hqueue] at hmem
          rcases List.mem_cons.mp hmem with rfl | hmem
          · exact Or.inr ⟨w, Function.update_self ..⟩
          · exact Or.inl hmem
        · refine Or.inr ⟨w', update_eq_iff.mpr (Or.inr ⟨?_, hw'⟩)⟩
          rintro rfl
          rw [hfree] at hw'
          cases hw'
    · cases h
  | call w malloc =>
    simp only [poolNext] at h
    split at h
    · next t hw =>
      obtain ⟨sys, hsys, rfl⟩ := Option.map_eq_some_iff.mp h
      exact hs.moves hw fun u hu => next_service (Or.inr ⟨malloc, rfl⟩) hsys hu
    · cases h
  | wake w =>
    simp only [poolNext] at h
    split at h
    · next t hw =>
      obtain ⟨sys, hsys, rfl⟩ := Option.map_eq_some_iff.mp h
      exact hs.moves hw fun u hu => next_service (Or.inl rfl) hsys hu
    · cases h
  | finish w =>
    simp only [poolNext] at h
    split at h
    · next t hw =>
      split at h
      · next r hprog =>
        cases h
        refine ⟨fun u hu => ?_, hs.nodup, fun u hu => ?_⟩
        · obtain ⟨hlog, hnone⟩ := hs.queued u hu
          refine ⟨hlog, fun w' hw' => ?_⟩
          rcases update_eq_iff.mp hw' with ⟨-, heq⟩ | ⟨-, hw'⟩
          · cases heq
          · exact hnone w' hw'
        · rcases hs.staffed u hu with hmem | ⟨w', hw'⟩
          · exact Or.inl hmem
          · refine Or.inr ⟨w', update_eq_iff.mpr (Or.inr ⟨?_, hw'⟩)⟩
            rintro rfl
            rw [hw] at hw'
            cases hw'
            rw [hprog] at hu
            cases hu
      · cases h
    · cases h

/-- The request of a worker is asleep in an acquire function, with no wake-up pending. -/
def Asleep (s : Pool W T) (t : T) (kind : LockKind) (name : Bytes) : Prop :=
  ∃ entry, (s.sys.locks ()).phase t = .asleep kind name entry

/-- Sleepers wait for a thread that has their name, whoever has a name is awake, and as
long as a worker has a request to finish some such worker is awake. -/
structure Live (s : Pool W T) : Prop where
  writers : ∀ t name, Asleep s t .write name → ∃ u kind, (s.sys.locks ()).held u name = some kind
  readers : ∀ t name, Asleep s t .read name → ∃ u, (s.sys.locks ()).held u name = some .write
  holders : ∀ t name kind, (s.sys.locks ()).held t name = some kind →
    ∀ kind' name', ¬ Asleep s t kind' name'
  progress : ∀ w t, s.serving w = some t → (s.sys.service t).prog.result = none →
    ∃ w' t', s.serving w' = some t' ∧ (s.sys.service t').prog.result = none ∧
      ∀ kind name, ¬ Asleep s t' kind name

variable [Fintype T]

omit [DecidableEq W] [DecidableEq T] in
theorem live_of {s : Pool W T} (hL : Locked host one s.sys) (hj : Justified (s.sys.locks ()))
    (hs : Staffed s) : Live s := by
  have hwriters : ∀ t name, Asleep s t .write name →
      ∃ u kind, (s.sys.locks ()).held u name = some kind := by
    intro t name ht
    obtain ⟨entry, hphase⟩ := ht
    by_contra hnone
    exact not_busy_iff.mpr (fun u kind hu => absurd ⟨u, kind, hu⟩ hnone)
      (hj t .write name entry hphase)
  have hreaders : ∀ t name, Asleep s t .read name →
      ∃ u, (s.sys.locks ()).held u name = some .write := by
    intro t name ht
    obtain ⟨entry, hphase⟩ := ht
    by_contra hnone
    refine not_busy_iff.mpr (fun u kind hu => ?_) (hj t .read name entry hphase)
    cases kind with
    | read => exact ⟨rfl, rfl⟩
    | write => exact absurd ⟨u, hu⟩ hnone
  have hholders : ∀ t name kind, (s.sys.locks ()).held t name = some kind →
      ∀ kind' name', ¬ Asleep s t kind' name' := by
    intro t name kind ht kind' name' hasleep
    obtain ⟨entry, hphase⟩ := hasleep
    exact (holder_awake hL ht).1 () kind' name' entry (Or.inl hphase)
  refine ⟨hwriters, hreaders, hholders, fun w t hw ht => ?_⟩
  by_cases hasleep : ∃ kind name, Asleep s t kind name
  · obtain ⟨kind, name, ht'⟩ := hasleep
    have hholder : ∃ u kind', (s.sys.locks ()).held u name = some kind' := by
      cases kind with
      | write => exact hwriters t name ht'
      | read => exact (hreaders t name ht').imp fun u hu => ⟨.write, hu⟩
    obtain ⟨u, kind', hu⟩ := hholder
    obtain ⟨-, hresult, hlog⟩ := holder_awake hL hu
    rcases hs.staffed u hresult with hmem | ⟨w', hw'⟩
    · exact absurd (hs.queued u hmem).1 hlog
    · exact ⟨w', u, hw', hresult, hholders u name kind' hu⟩
  · exact ⟨w, t, hw, ht, fun kind name ht' => hasleep ⟨kind, name, ht'⟩⟩

/-- Every step of the pool is a step of the lock table of its process, or leaves it alone. -/
theorem poolStep_inv {s s' : Pool W T} {a : PoolLabel W} (hL : Locked host one s.sys)
    (hj : Justified (s.sys.locks ())) (h : PoolStep host s a s') :
    Locked host one s'.sys ∧ Justified (s'.sys.locks ()) := by
  obtain ⟨ks, hrun⟩ := poolStep_process h
  refine hrun.invariant (I := fun sys => Locked host one sys ∧ Justified (sys.locks ()))
    ⟨hL, hj⟩ fun sys b sys' hsys hstep => ?_
  obtain ⟨hL, hj⟩ := hsys
  refine ⟨(hL.step hstep.1 hstep.2).1, ?_⟩
  rcases locks_step hL hstep.1 hstep.2 () with heq | ⟨b, hb⟩
  · rw [heq]
    exact hj
  · exact hj.step (hL.locks ()) hb

/-- No wake-up is lost and no deadlock arises in the lock table, in any interleaving. -/
theorem pool_live (host : Host) (requests : List Request) (σ₀ : Bytes → Node)
    (hok : ∀ r ∈ requests, r.Complete ∧ r.NamesFile) {ls : List (PoolLabel W)}
    {s : Pool W (Fin requests.length)}
    (h : Run (PoolStep host) (openPool W host requests σ₀) ls s) : Live s := by
  obtain ⟨hL, hj, hs⟩ : Locked host one s.sys ∧ Justified (s.sys.locks ()) ∧ Staffed s := by
    refine h.invariant (I := fun s => Locked host one s.sys ∧ Justified (s.sys.locks ()) ∧
      Staffed s) ⟨?_, initial_justified, openPool_staffed host requests σ₀⟩ ?_
    · exact start_locked host one (fun t => hok _ (List.getElem_mem ..)) σ₀
    · intro s a s' hinv hstep
      obtain ⟨hL, hj, hs⟩ := hinv
      obtain ⟨hL', hj'⟩ := poolStep_inv hL hj hstep
      exact ⟨hL', hj', hs.step hstep.1⟩
  exact live_of hL hj hs

/-- The second worker sleeps on a name that the first one has. -/
def sleeping : List (PoolLabel Bool) :=
  [.take true, .take false] ++ List.replicate 3 (.call true (some 1)) ++
    List.replicate 2 (.call false (some 2))

theorem sleeping_asleep :
    ((follow (guarded (poolNext sampleHost) fun _ a => a.Allocates)
      (openPool Bool sampleHost sampleRequests sampleFile)
        sleeping).map fun s => (s.sys.locks ()).phase ⟨1, by decide⟩) =
      some (.asleep .read [0x61] (some 1)) := by
  decide +kernel

theorem pool_live_sleeping :
    ∃ s, Run (PoolStep sampleHost)
        (openPool Bool sampleHost sampleRequests sampleFile)
          sleeping s ∧
      Asleep s ⟨1, by decide⟩ .read [0x61] ∧
      ∃ u, (s.sys.locks ()).held u [0x61] = some .write := by
  obtain ⟨s, hs, hphase⟩ := Option.map_eq_some_iff.mp sleeping_asleep
  have hok : ∀ r ∈ sampleRequests, r.Complete ∧ r.NamesFile := by
    unfold Request.Complete Request.NamesFile
    decide
  have hrun := run_of_guarded hs
  have hlive := pool_live sampleHost sampleRequests sampleFile hok hrun
  exact ⟨s, hrun, ⟨_, hphase⟩, hlive.readers _ _ ⟨_, hphase⟩⟩

end Pool

end NervFS.Wakeups
