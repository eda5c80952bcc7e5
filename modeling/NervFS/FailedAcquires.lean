import NervFS.NameLocks

/-!
Acquire functions that find no entry. One whose allocation fails returns as if it had its
lock, and its caller releases it later. Beside what the callers take themselves to hold,
this records the holds that the table was told of, so that a release can be said to end
the caller's own hold or somebody else's.
-/
namespace NervFS.FailedAcquires

open Transitions Calls FileOps LockTable
open NameLocks (Label Phase setHeld tally holders mem_holders test Waiting)

structure State (T : Type) where
  sys : NameLocks.State T
  /-- The holds that are in the entries. -/
  own : T → Bytes → Option LockKind

def start (T : Type) : State T where
  sys := NameLocks.initial T
  own _ _ := none

variable {T : Type}

/-- The test of a waiting loop that a step runs: the thread, its request and the pointer to
the entry. -/
def tested (s : NameLocks.State T) : Label T → Option (T × LockKind × Bytes × Option ℕ)
  | .acquire t kind name malloc => some (t, kind, name, (getEntryLocked s.table name malloc).1)
  | .retest t =>
    match s.phase t with
    | .woken kind name entry => some (t, kind, name, entry)
    | _ => none
  | _ => none

/-- A release may come from a thread whose acquire function found no entry. -/
def Matched (s : State T) : Label T → Prop
  | .acquire t _ name _ => s.sys.held t name = none ∧ name.length ≤ nervfsMaxNameLen
  | .release t kind name _ => s.sys.held t name = some kind ∧ name.length ≤ nervfsMaxNameLen
  | _ => True

/-- A release comes from a thread that has its hold in the entry, or else there is no hold
of that kind in the entry. -/
def EndsOwn (s : State T) : Label T → Prop
  | .release t kind name _ => s.own t name = some kind ∨ ∀ u, s.own u name ≠ some kind
  | _ => True

instance (s : State T) (a : Label T) : Decidable (Matched s a) := by
  unfold Matched
  split <;> infer_instance

instance [Fintype T] (s : State T) (a : Label T) : Decidable (EndsOwn s a) := by
  unfold EndsOwn
  split <;> infer_instance

/-- The table counts the holds that were put into it, and a writer's is the only one. -/
structure Intact [Fintype T] (s : State T) : Prop where
  counted : ∀ name, counts s.sys.table name = tally s.own name
  alone : ∀ t u name kind, s.own t name = some .write → s.own u name = some kind → u = t

variable [DecidableEq T]

/-- A thread that leaves its acquire function has put its hold into the entry, if it had
one. -/
def ownAfter (s : State T) (a : Label T) (sys : NameLocks.State T) : T → Bytes → Option LockKind :=
  match tested s.sys a, a with
  | some (t, kind, name, some _), _ =>
    if sys.phase t = .outside then setHeld s.own t name (some kind) else s.own
  | _, .release t _ name _ => setHeld s.own t name none
  | _, _ => s.own

def next (s : State T) (a : Label T) : Option (State T) :=
  (NameLocks.next s.sys a).map fun sys => { sys := sys, own := ownAfter s a sys }

/-- The lock table with the holds that it was told of. -/
def listed (s : State T) : NameLocks.State T := { s.sys with held := s.own }

/-- The table is that of threads with these holds, and a hold in the table is one that its
thread knows of. -/
structure Inv [Fintype T] (s : State T) : Prop where
  counted : NameLocks.Inv (listed s)
  known : ∀ t name kind, s.own t name = some kind → s.sys.held t name = some kind

section Step
variable [Fintype T] {s s' : State T} {a : Label T} {t : T} {kind : LockKind} {name : Bytes}
variable {addr : ℕ}

omit [DecidableEq T] in
theorem start_inv : Inv (start T) where
  counted := NameLocks.initial_inv
  known t name kind h := by cases h

omit [DecidableEq T] in
theorem Inv.intact (hi : Inv s) : Intact s where
  counted := hi.counted.counted
  alone := hi.counted.consistent.alone

omit [DecidableEq T] in
theorem Inv.own_none (hi : Inv s) (h : s.sys.held t name = none) : s.own t name = none := by
  cases hown : s.own t name with
  | none => rfl
  | some kind => rw [hi.known t name kind hown] at h; cases h

theorem Inv.setHeld_known {h : Option LockKind} (hi : Inv s) (u : T) (n : Bytes) (k : LockKind)
    (hown : setHeld s.own t name h u n = some k) : setHeld s.sys.held t name h u n = some k := by
  rw [NameLocks.setHeld_apply] at hown ⊢
  split
  · next heq => rwa [if_pos heq] at hown
  · next hne =>
    rw [if_neg hne] at hown
    exact hi.known u n k hown

/-- The test of a waiting loop on an entry, which the record follows. -/
theorem Inv.tested (hi : Inv s) (hp : PointsTo s.sys.table addr name)
    (hnone : s.own t name = none) :
    Inv { sys := test s.sys t kind name (some addr)
          own := if (test s.sys t kind name (some addr)).phase t = .outside then
            setHeld s.own t name (some kind) else s.own } := by
  have htest : NameLocks.Inv (test (listed s) t kind name (some addr)) :=
    hi.counted.test hp hnone
  unfold test at htest ⊢
  cases hregion : acquireTest (acquireOf kind) s.sys.table (some addr) with
  | none =>
    rw [show (listed s).table = s.sys.table from rfl, hregion] at htest
    dsimp only
    rw [if_neg (by rw [Function.update_self]; exact fun h => by cases h)]
    exact ⟨htest, hi.known⟩
  | some table =>
    rw [show (listed s).table = s.sys.table from rfl, hregion] at htest
    dsimp only
    rw [if_pos (by rw [Function.update_self])]
    exact ⟨htest, fun u n k => hi.setHeld_known u n k⟩

/-- An acquire function that finds no entry tells the table nothing. -/
theorem Inv.unlisted (hi : Inv s) (hphase : s.sys.phase t = .outside)
    (hnone : s.sys.held t name = none) :
    Inv { sys := test s.sys t kind name none, own := s.own } := by
  have hstay : Function.update s.sys.phase t .outside = s.sys.phase := by
    rw [← hphase, Function.update_eq_self]
  have htest : test s.sys t kind name none =
      { s.sys with held := setHeld s.sys.held t name (some kind) } := by
    change ({ s.sys with
      phase := Function.update s.sys.phase t .outside
      held := setHeld s.sys.held t name (some kind) } : NameLocks.State T) = _
    rw [hstay]
  rw [htest]
  refine ⟨hi.counted, fun u n k hown => ?_⟩
  have hheld := hi.known u n k hown
  change setHeld s.sys.held t name (some kind) u n = some k
  rw [NameLocks.setHeld_apply]
  split
  · next heq =>
    obtain ⟨rfl, rfl⟩ := heq
    rw [hnone] at hheld
    cases hheld
  · exact hheld

omit [DecidableEq T] in
theorem released_eq_iff (kind : LockKind) (own : T → Bytes → Option LockKind) (name : Bytes) :
    released kind (tally own name) = tally own name ↔ ∀ u, own u name ≠ some kind := by
  have hcard : (holders own kind name).card = 0 ↔ ∀ u, own u name ≠ some kind := by
    rw [Finset.card_eq_zero, Finset.eq_empty_iff_forall_notMem]
    simp only [mem_holders, ne_eq]
  rw [← hcard]
  cases kind with
  | write =>
    simp only [released, tally, Prod.mk.injEq, and_true]
    exact eq_comm
  | read =>
    simp only [released, tally, Prod.mk.injEq, true_and]
    omega

/-- A release takes its kind of hold off the counters of the name; the holds that are left
are the ones counted exactly when the hold was the thread's own or there was none. -/
theorem Inv.release {table : Table} {malloc : Option ℕ} (hi : Inv s)
    (hsome : s.sys.held t name = some kind)
    (heff : Effect s.sys.table name (released kind) table) :
    let s' : State T :=
      { sys :=
          { table := table
            phase := fun u => (s.sys.phase u).broadcast
            held := setHeld s.sys.held t name none }
        own := setHeld s.own t name none }
    (EndsOwn s (.release t kind name malloc) → Inv s') ∧
      (Intact s' → EndsOwn s (.release t kind name malloc)) := by
  dsimp only
  have hknown : ∀ u n k, setHeld s.own t name none u n = some k →
      setHeld s.sys.held t name none u n = some k := hi.setHeld_known
  by_cases hown : s.own t name = some kind
  · exact ⟨fun _ => ⟨hi.counted.release hown heff, hknown⟩, fun _ => Or.inl hown⟩
  · -- the thread has no hold in the entry, so nobody's is taken off the record
    have hnone : s.own t name = none := by
      cases hk : s.own t name with
      | none => rfl
      | some k =>
        have heq := (hi.known t name k hk).symm.trans hsome
        rw [Option.some.inj heq] at hk
        exact absurd hk hown
    have hsame : setHeld s.own t name none = s.own := by
      unfold setHeld
      rw [← hnone, Function.update_eq_self, Function.update_eq_self]
    rw [hsame] at hknown ⊢
    have heff' : Effect (listed s).table name (released kind) table := heff
    constructor
    · rintro (h | hnobody)
      · exact absurd h hown
      · have htally := (released_eq_iff kind s.own name).mpr hnobody
        refine ⟨hi.counted.update heff' htally.symm (fun _ _ => rfl) ?_ fun u k n e h => ?_, hknown⟩
        · rw [show (listed s).held = s.own from rfl, htally]
          exact hi.counted.exclusive name
        · exact ⟨NameLocks.broadcast_waiting h, id⟩
    · intro hintact
      have hbefore : counts s.sys.table name = tally s.own name := hi.counted.counted name
      have hafter : released kind (tally s.own name) = tally s.own name := by
        calc released kind (tally s.own name) = counts table name := by rw [heff.own, hbefore]
          _ = tally s.own name := hintact.counted name
      exact Or.inr ((released_eq_iff kind s.own name).mp hafter)

/-- A step keeps the holds and the table together exactly when it ends its own. -/
theorem Inv.step (hi : Inv s) (hm : Matched s a) (h : next s a = some s') :
    (EndsOwn s a → Inv s') ∧ (Intact s' → EndsOwn s a) := by
  obtain ⟨sys, hsys, rfl⟩ := Option.map_eq_some_iff.mp h
  cases a with
  | acquire t kind name malloc =>
    obtain ⟨hnone, hlen⟩ := hm
    refine ⟨fun _ => ?_, fun _ => trivial⟩
    simp only [NameLocks.next, Option.ite_none_right_eq_some, Option.some.injEq] at hsys
    obtain ⟨⟨hphase, hfresh⟩, rfl⟩ := hsys
    rcases getEntryLocked_cases hi.counted.wellFormed hlen hfresh with
      ⟨addr, table, hget, heff, hp⟩ | ⟨-, -, hget⟩
    · have hget' : getEntryLocked s.sys.table name malloc = (some addr, table) := hget
      have hgrown : Inv { s with sys := { s.sys with table := table } } :=
        ⟨hi.counted.extend heff, hi.known⟩
      simp only [ownAfter, FailedAcquires.tested, hget']
      exact hgrown.tested hp (hi.own_none hnone)
    · have hget' : getEntryLocked s.sys.table name malloc = (none, s.sys.table) := hget
      simp only [ownAfter, FailedAcquires.tested, hget']
      exact hi.unlisted hphase hnone
  | wake t =>
    refine ⟨fun _ => ?_, fun _ => trivial⟩
    simp only [NameLocks.next] at hsys
    split at hsys
    · next kind name entry hphase =>
      cases hsys
      obtain ⟨⟨addr, rfl, hp⟩, hnone⟩ := hi.counted.waiting t kind name entry (Or.inl hphase)
      exact ⟨hi.counted.wait hnone hp (Or.inr rfl), hi.known⟩
    · cases hsys
  | retest t =>
    refine ⟨fun _ => ?_, fun _ => trivial⟩
    simp only [NameLocks.next] at hsys
    split at hsys
    · next kind name entry hphase =>
      cases hsys
      obtain ⟨⟨addr, rfl, hp⟩, hnone⟩ := hi.counted.waiting t kind name entry (Or.inr hphase)
      simp only [ownAfter, FailedAcquires.tested, hphase]
      exact hi.tested hp hnone
    · cases hsys
  | release t kind name malloc =>
    obtain ⟨hsome, hlen⟩ := hm
    simp only [NameLocks.next, Option.ite_none_right_eq_some, Option.some.injEq] at hsys
    obtain ⟨⟨-, hfresh⟩, rfl⟩ := hsys
    exact hi.release hsome (releaseRegion_effect kind hi.counted.wellFormed hlen hfresh)

end Step

/-- While every release ends its own hold, the table counts the holds in it and a writer is
alone; the first release that does not breaks the count. -/
theorem holds_intact_iff [Fintype T] {s : State T} {ls : List (Label T)}
    (h : Run (Where (Computes next) fun s a _ => Matched s a ∧ EndsOwn s a) (start T) ls s) :
    Intact s ∧ ∀ a s', Matched s a → next s a = some s' → (Intact s' ↔ EndsOwn s a) := by
  have hinv : Inv s := by
    refine h.invariant start_inv fun s a t hi hstep => ?_
    obtain ⟨hnext, hmatched, hends⟩ := hstep
    exact (hi.step hmatched hnext).1 hends
  refine ⟨hinv.intact, fun a s' hmatched hnext => ?_⟩
  obtain ⟨hkeep, hends⟩ := hinv.step hmatched hnext
  exact ⟨hends, fun hown => (hkeep hown).intact⟩

inductive Worker
  | unlisted
  | holder
  | newcomer
  deriving DecidableEq

instance : Fintype Worker where
  elems := {.unlisted, .holder, .newcomer}
  complete w := by cases w <;> decide

def sampleName : Bytes := [0x61]

/-- A worker goes on without an entry and is done before the next one comes. -/
def beforeOthers : List (Label Worker) :=
  [.acquire .unlisted .write sampleName none, .release .unlisted .write sampleName none,
    .acquire .holder .write sampleName (some 1), .acquire .newcomer .write sampleName none]

theorem beforeOthers_waits :
    (follow (guarded next fun s a => Matched s a ∧ EndsOwn s a) (start Worker) beforeOthers).map
      (fun s => (s.own .holder sampleName, s.own .newcomer sampleName)) =
        some (some .write, none) := by
  decide +kernel

theorem holds_intact_beforeOthers :
    ∃ s, follow next (start Worker) beforeOthers = some s ∧ s.own .holder sampleName = some .write ∧
      Intact s := by
  obtain ⟨s, hs, hend⟩ := Option.map_eq_some_iff.mp beforeOthers_waits
  exact ⟨s, follow_of_guarded hs, congrArg Prod.fst hend, (holds_intact_iff (run_of_guarded hs)).1⟩

/-- The second worker has the write lock when the first one, which found no entry, releases
it, and the third one comes in. -/
def besideHolder : List (Label Worker) :=
  [.acquire .unlisted .write sampleName none, .acquire .holder .write sampleName (some 1),
    .release .unlisted .write sampleName none, .acquire .newcomer .write sampleName none]

theorem besideHolder_enters :
    (follow (guarded next Matched) (start Worker) besideHolder).map
      (fun s => (s.own .holder sampleName, s.own .newcomer sampleName)) =
        some (some .write, some .write) := by
  decide +kernel

/-- Two workers have the write lock of one name. -/
theorem worker_let_in :
    ¬ ∀ (ls : List (Label Worker)) (s : State Worker),
      Run (Where (Computes next) fun s a _ => Matched s a) (start Worker) ls s → Intact s := by
  intro h
  obtain ⟨s, hs, hend⟩ := Option.map_eq_some_iff.mp besideHolder_enters
  obtain ⟨hholder, hother⟩ := Prod.mk.inj hend
  have hintact := h besideHolder s (run_of_guarded hs)
  have heq := hintact.alone .holder .newcomer sampleName .write hholder hother
  exact absurd heq (by decide)

end NervFS.FailedAcquires
