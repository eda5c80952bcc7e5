import NervFS.LockTable
import NervFS.Lib.Transitions
import Mathlib.Data.Fintype.Card

/-!
Threads that call the four lock functions, in every interleaving. A region under
`lock_table_mutex` is one step; a thread inside `pthread_cond_wait` is asleep until a
broadcast or a spurious wake-up, and then tests its condition again. The holds of the
threads are recorded beside the table, which does not know who holds an entry.
-/
namespace NervFS.NameLocks

open Transitions Calls FileOps LockTable

/-- Where a thread is in an acquire function, with the pointer it keeps in a local
variable over the wait. -/
inductive Phase
  | outside
  | asleep (kind : LockKind) (name : Bytes) (entry : Option ℕ)
  | woken (kind : LockKind) (name : Bytes) (entry : Option ℕ)
  deriving DecidableEq

structure State (T : Type) where
  table : Table
  phase : T → Phase
  held : T → Bytes → Option LockKind

inductive Label (T : Type)
  | acquire (t : T) (kind : LockKind) (name : Bytes) (malloc : Option ℕ)
  | wake (t : T)
  | retest (t : T)
  | release (t : T) (kind : LockKind) (name : Bytes) (malloc : Option ℕ)

def initial (T : Type) : State T where
  table := []
  phase _ := .outside
  held _ _ := none

instance (table : Table) (malloc : Option ℕ) : Decidable (Fresh table malloc) :=
  inferInstanceAs (Decidable (∀ addr ∈ malloc, ∀ e ∈ table, e.addr ≠ addr))

/-- `pthread_cond_broadcast`. -/
def Phase.broadcast : Phase → Phase
  | asleep kind name entry => woken kind name entry
  | p => p

variable {T : Type}

def setHeld [DecidableEq T] (held : T → Bytes → Option LockKind) (t : T) (name : Bytes)
    (h : Option LockKind) :
    T → Bytes → Option LockKind :=
  Function.update held t (Function.update (held t) name h)

/-- The region from the test of the waiting loop on: the thread takes the lock and leaves,
or it goes to sleep. -/
def test [DecidableEq T] (s : State T) (t : T) (kind : LockKind) (name : Bytes)
    (entry : Option ℕ) : State T :=
  match acquireTest (acquireOf kind) s.table entry with
  | some table =>
    { table := table
      phase := Function.update s.phase t .outside
      held := setHeld s.held t name (some kind) }
  | none => { s with phase := Function.update s.phase t (.asleep kind name entry) }

def next [DecidableEq T] (s : State T) : Label T → Option (State T)
  | .acquire t kind name malloc =>
    if s.phase t = .outside ∧ Fresh s.table malloc then
      let (entry, table) := getEntryLocked s.table name malloc
      some (test { s with table := table } t kind name entry)
    else none
  | .wake t =>
    match s.phase t with
    | .asleep kind name entry =>
      some { s with phase := Function.update s.phase t (.woken kind name entry) }
    | _ => none
  | .retest t =>
    match s.phase t with
    | .woken kind name entry => some (test s t kind name entry)
    | _ => none
  | .release t kind name malloc =>
    if s.phase t = .outside ∧ Fresh s.table malloc then
      some
        { table := releaseRegion (releaseOf kind) s.table name malloc
          phase := fun u => (s.phase u).broadcast
          held := setHeld s.held t name none }
    else none

/-- Calls in matched pairs, on names that fit an entry, with successful allocations: a
thread takes a name that it does not hold, and releases what it holds. -/
def Matched (s : State T) (a : Label T) (_ : State T) : Prop :=
  match a with
  | .acquire t _ name malloc =>
    s.held t name = none ∧ name.length ≤ nervfsMaxNameLen ∧ malloc ≠ none
  | .release t kind name malloc =>
    s.held t name = some kind ∧ name.length ≤ nervfsMaxNameLen ∧ malloc ≠ none
  | _ => True

abbrev Step [DecidableEq T] : State T → Label T → State T → Prop := Where (Computes next) Matched

section Tally
variable {held : T → Bytes → Option LockKind} {t : T} {name : Bytes}

/-- The threads that hold the lock of the name in the given kind. -/
def holders [Fintype T] (held : T → Bytes → Option LockKind) (kind : LockKind) (name : Bytes) :
    Finset T :=
  Finset.univ.filter fun t => held t name = some kind

theorem mem_holders [Fintype T] {kind : LockKind} :
    t ∈ holders held kind name ↔ held t name = some kind := by
  simp [holders]

/-- The numbers of writers and of readers of a name. -/
def tally [Fintype T] (held : T → Bytes → Option LockKind) (name : Bytes) : ℕ × ℕ :=
  ((holders held .write name).card, (holders held .read name).card)

/-- A lock is free for a thread when nobody holds its name in a conflicting kind. -/
theorem not_busy_iff [Fintype T] {held : T → Bytes → Option LockKind} {kind : LockKind} :
    ¬ Busy kind (tally held name) ↔
      ∀ u kind', held u name = some kind' → kind = .read ∧ kind' = .read := by
  have hcard : ∀ kind', 0 < (holders held kind' name).card ↔ ∃ u, held u name = some kind' := by
    intro kind'
    simp only [Finset.card_pos, Finset.Nonempty, mem_holders]
  cases kind with
  | write =>
    have hbusy : Busy .write (tally held name) ↔
        (∃ u, held u name = some .write) ∨ ∃ u, held u name = some .read := by
      rw [← hcard, ← hcard]
      exact Iff.rfl
    rw [hbusy]
    constructor
    · rintro hnot u kind' hu
      cases kind' with
      | write => exact absurd (Or.inl ⟨u, hu⟩) hnot
      | read => exact absurd (Or.inr ⟨u, hu⟩) hnot
    · rintro h (⟨u, hu⟩ | ⟨u, hu⟩)
      · exact nomatch (h u .write hu).1
      · exact nomatch (h u .read hu).1
  | read =>
    have hbusy : Busy .read (tally held name) ↔ ∃ u, held u name = some .write := hcard .write
    rw [hbusy]
    constructor
    · intro hnot u kind' hu
      cases kind' with
      | write => exact absurd ⟨u, hu⟩ hnot
      | read => exact ⟨rfl, rfl⟩
    · rintro h ⟨u, hu⟩
      exact nomatch (h u .write hu).2

theorem setHeld_apply [DecidableEq T] (h : Option LockKind) (u : T) (n : Bytes) :
    setHeld held t name h u n = if u = t ∧ n = name then h else held u n := by
  unfold setHeld
  by_cases hu : u = t
  · subst hu
    by_cases hn : n = name
    · subst hn
      simp
    · simp [hn]
  · simp [hu]

variable [Fintype T] [DecidableEq T]

theorem holders_setHeld_ne (h : Option LockKind) (kind : LockKind) {n : Bytes} (hn : n ≠ name) :
    holders (setHeld held t name h) kind n = holders held kind n := by
  ext u
  simp [mem_holders, setHeld_apply, hn]

theorem tally_setHeld_ne (h : Option LockKind) {n : Bytes} (hn : n ≠ name) :
    tally (setHeld held t name h) n = tally held n := by
  simp only [tally, holders_setHeld_ne h _ hn]

theorem holders_take (hnone : held t name = none) (kind kind' : LockKind) :
    holders (setHeld held t name (some kind)) kind' name =
      if kind' = kind then insert t (holders held kind' name) else holders held kind' name := by
  ext u
  by_cases hu : u = t
  · subst hu
    by_cases hk : kind' = kind
    · simp [mem_holders, setHeld_apply, hk]
    · simp [mem_holders, setHeld_apply, hk, Ne.symm hk, hnone]
  · by_cases hk : kind' = kind
    · simp [mem_holders, setHeld_apply, hk, hu]
    · simp [mem_holders, setHeld_apply, hk, hu]

theorem holders_drop {kind : LockKind} (hsome : held t name = some kind) (kind' : LockKind) :
    holders (setHeld held t name none) kind' name =
      if kind' = kind then (holders held kind' name).erase t else holders held kind' name := by
  ext u
  by_cases hu : u = t
  · subst hu
    by_cases hk : kind' = kind
    · simp [mem_holders, setHeld_apply, hk]
    · simp [mem_holders, setHeld_apply, hk, Ne.symm hk, hsome]
  · by_cases hk : kind' = kind
    · simp [mem_holders, setHeld_apply, hk, hu]
    · simp [mem_holders, setHeld_apply, hk, hu]

theorem tally_take {kind : LockKind} (hnone : held t name = none)
    (hfree : ¬ Busy kind (tally held name)) :
    tally (setHeld held t name (some kind)) name = taken kind (tally held name) := by
  have hnot : ∀ kind, t ∉ holders held kind name := by simp [mem_holders, hnone]
  cases kind with
  | read => simp [tally, holders_take hnone, taken, hnot]
  | write =>
    have hzero : (holders held .write name).card = 0 := by
      simp only [Busy, tally] at hfree
      omega
    simp [tally, holders_take hnone, taken, hnot, hzero]

theorem tally_drop {kind : LockKind} (hsome : held t name = some kind)
    (hle : (tally held name).1 ≤ 1) :
    tally (setHeld held t name none) name = released kind (tally held name) := by
  have hmem : t ∈ holders held kind name := mem_holders.mpr hsome
  cases kind with
  | read => simp [tally, holders_drop hsome, released, Finset.card_erase_of_mem hmem]
  | write =>
    have hone : (holders held .write name).card - 1 = 0 := by
      simp only [tally] at hle
      omega
    simp [tally, holders_drop hsome, released, Finset.card_erase_of_mem hmem, hone]

end Tally

section Labels
variable {s : State T} {t : T} {kind : LockKind} {name : Bytes}

def Waiting (s : State T) (t : T) (kind : LockKind) (name : Bytes) (entry : Option ℕ) : Prop :=
  s.phase t = .asleep kind name entry ∨ s.phase t = .woken kind name entry

/-- The thread that runs the test of an acquire function in a step, with its request. -/
def Tests (s : State T) (a : Label T) (t : T) (kind : LockKind) (name : Bytes) : Prop :=
  (∃ malloc, a = .acquire t kind name malloc) ∨
    a = .retest t ∧ ∃ entry, s.phase t = .woken kind name entry

/-- The name that a step is about. -/
def subject (s : State T) : Label T → Option Bytes
  | .acquire _ _ name _ => some name
  | .release _ _ name _ => some name
  | .wake t | .retest t =>
    match s.phase t with
    | .outside => none
    | .asleep _ name _ => some name
    | .woken _ name _ => some name

theorem Tests.subject {a : Label T} (h : Tests s a t kind name) : subject s a = some name := by
  rcases h with ⟨malloc, rfl⟩ | ⟨rfl, entry, hphase⟩
  · rfl
  · simp only [NameLocks.subject, hphase]

theorem Tests.unique {a : Label T} {t' : T} {kind' : LockKind} {name' : Bytes}
    (h : Tests s a t kind name) (h' : Tests s a t' kind' name') :
    t' = t ∧ kind' = kind ∧ name' = name := by
  rcases h with ⟨malloc, rfl⟩ | ⟨rfl, entry, hphase⟩
  · rcases h' with ⟨malloc', heq⟩ | ⟨heq, -⟩
    · cases heq
      exact ⟨rfl, rfl, rfl⟩
    · cases heq
  · rcases h' with ⟨malloc', heq⟩ | ⟨heq, entry', hphase'⟩
    · cases heq
    · cases heq
      rw [hphase] at hphase'
      cases hphase'
      exact ⟨rfl, rfl, rfl⟩

end Labels

section Invariant
variable [Fintype T]

/-- The pairs of counters that one writer, or readers alone, can give. -/
def Exclusive (c : ℕ × ℕ) : Prop := c.1 ≤ 1 ∧ (c.1 = 1 → c.2 = 0)

theorem Exclusive.taken {kind : LockKind} {c : ℕ × ℕ} (h : Exclusive c) (hfree : ¬ Busy kind c) :
    Exclusive (taken kind c) := by
  unfold Exclusive at *
  cases kind with
  | read =>
    simp only [Busy] at hfree
    simp only [LockTable.taken]
    omega
  | write =>
    simp only [Busy] at hfree
    simp only [LockTable.taken]
    omega

theorem Exclusive.released {kind : LockKind} {c : ℕ × ℕ} (h : Exclusive c) :
    Exclusive (released kind c) := by
  unfold Exclusive at *
  cases kind <;> simp only [LockTable.released] <;> omega

/-- The counters of every entry are the numbers of threads that hold it, one writer
excludes everybody else, and a waiting thread keeps a valid pointer. -/
structure Inv (s : State T) : Prop where
  wellFormed : WellFormed s.table
  counted : ∀ name, counts s.table name = tally s.held name
  exclusive : ∀ name, Exclusive (tally s.held name)
  waiting : ∀ t kind name entry, Waiting s t kind name entry →
    (∃ addr, entry = some addr ∧ PointsTo s.table addr name) ∧ s.held t name = none

theorem initial_inv : Inv (initial T) where
  wellFormed := ⟨List.nodup_nil, List.nodup_nil⟩
  counted name := by simp [initial, counts, lookup, tally, holders]
  exclusive name := by simp [initial, tally, holders, Exclusive]
  waiting t kind name entry h := by
    rcases h with h | h <;> cases h

/-- A region on one name keeps the invariant when the holds change as its counters do. -/
theorem Inv.update {s : State T} {name : Bytes} {f : ℕ × ℕ → ℕ × ℕ} {table : Table}
    {phase : T → Phase} {held : T → Bytes → Option LockKind} (hi : Inv s)
    (heff : Effect s.table name f table) (hown : tally held name = f (tally s.held name))
    (hother : ∀ n, n ≠ name → tally held n = tally s.held n)
    (hexcl : Exclusive (f (tally s.held name)))
    (hwait : ∀ u k n e, Waiting ⟨table, phase, held⟩ u k n e →
      Waiting s u k n e ∧ (s.held u n = none → held u n = none)) :
    Inv ⟨table, phase, held⟩ := by
  refine ⟨heff.wellFormed, fun n => ?_, fun n => ?_, fun u k n e h => ?_⟩
  · by_cases hn : n = name
    · subst hn
      rw [heff.own, hi.counted, hown]
    · rw [heff.counts_ne hn, hi.counted, hother n hn]
  · by_cases hn : n = name
    · subst hn
      rw [hown]
      exact hexcl
    · rw [hother n hn]
      exact hi.exclusive n
  · obtain ⟨hw, hheld⟩ := hwait u k n e h
    obtain ⟨⟨addr, he, hp⟩, hnone⟩ := hi.waiting u k n e hw
    exact ⟨⟨addr, he, hp.grow heff.grows⟩, hheld hnone⟩

theorem Inv.extend {s : State T} {name : Bytes} {table : Table} (hi : Inv s)
    (heff : Effect s.table name id table) : Inv { s with table := table } :=
  hi.update heff rfl (fun _ _ => rfl) (hi.exclusive name) fun _ _ _ _ h => ⟨h, id⟩

variable [DecidableEq T] {s s' : State T} {t : T} {kind : LockKind} {name : Bytes}
variable {malloc : Option ℕ} {addr : ℕ}

/-- What the test of the waiting loop does: it waits exactly when another thread holds
the name in a conflicting kind. -/
theorem test_cases (t : T) (kind : LockKind) (hi : Inv s) (hp : PointsTo s.table addr name) :
    (Busy kind (tally s.held name) ∧
      test s t kind name (some addr) =
        { s with phase := Function.update s.phase t (.asleep kind name (some addr)) }) ∨
    (¬ Busy kind (tally s.held name) ∧ ∃ table, Effect s.table name (taken kind) table ∧
      test s t kind name (some addr) =
        { table := table
          phase := Function.update s.phase t .outside
          held := setHeld s.held t name (some kind) }) := by
  unfold test
  by_cases hb : Busy kind (tally s.held name)
  · left
    rw [acquireTest_busy hi.wellFormed hp (by rw [hi.counted]; exact hb)]
    exact ⟨hb, rfl⟩
  · right
    obtain ⟨table, htable, heff⟩ :=
      acquireTest_free kind hi.wellFormed hp (by rw [hi.counted]; exact hb)
    rw [htable]
    exact ⟨hb, table, heff, rfl⟩

theorem Inv.take {table : Table} (hi : Inv s) (hnone : s.held t name = none)
    (hfree : ¬ Busy kind (tally s.held name)) (heff : Effect s.table name (taken kind) table) :
    Inv { table := table
          phase := Function.update s.phase t .outside
          held := setHeld s.held t name (some kind) } := by
  refine hi.update heff (tally_take hnone hfree) (fun n hn => tally_setHeld_ne _ hn)
    ((hi.exclusive name).taken hfree) fun u k n e h => ?_
  by_cases hu : u = t
  · subst hu
    simp [Waiting] at h
  · refine ⟨by simpa [Waiting, hu] using h, fun hheld => ?_⟩
    rw [setHeld_apply, if_neg fun h => hu h.1]
    exact hheld

/-- A thread that waits, or has just been woken, on an entry that it does not hold. -/
theorem Inv.wait {p : Phase} (hi : Inv s) (hnone : s.held t name = none)
    (hp : PointsTo s.table addr name)
    (hphase : p = .asleep kind name (some addr) ∨ p = .woken kind name (some addr)) :
    Inv { s with phase := Function.update s.phase t p } := by
  refine ⟨hi.wellFormed, hi.counted, hi.exclusive, fun u k n e h => ?_⟩
  by_cases hu : u = t
  · subst hu
    have heq : k = kind ∧ n = name ∧ e = some addr := by
      rcases hphase with rfl | rfl <;> simpa [Waiting, eq_comm] using h
    obtain ⟨rfl, rfl, rfl⟩ := heq
    exact ⟨⟨addr, rfl, hp⟩, hnone⟩
  · exact hi.waiting u k n e (by simpa [Waiting, hu] using h)

theorem Inv.test (hi : Inv s) (hp : PointsTo s.table addr name) (hnone : s.held t name = none) :
    Inv (test s t kind name (some addr)) := by
  rcases test_cases t kind hi hp with ⟨-, heq⟩ | ⟨hfree, table, heff, heq⟩
  · rw [heq]
    exact hi.wait hnone hp (Or.inl rfl)
  · rw [heq]
    exact hi.take hnone hfree heff

theorem broadcast_waiting {p : Phase} {k : LockKind} {n : Bytes} {e : Option ℕ}
    (h : p.broadcast = .asleep k n e ∨ p.broadcast = .woken k n e) :
    p = .asleep k n e ∨ p = .woken k n e := by
  cases p with
  | outside => simp [Phase.broadcast] at h
  | asleep k' n' e' => simpa [Phase.broadcast] using h
  | woken k' n' e' => simpa [Phase.broadcast] using h

theorem Inv.release {table : Table} (hi : Inv s) (hsome : s.held t name = some kind)
    (heff : Effect s.table name (released kind) table) :
    Inv { table := table
          phase := fun u => (s.phase u).broadcast
          held := setHeld s.held t name none } := by
  refine hi.update heff (tally_drop hsome (hi.exclusive name).1)
    (fun n hn => tally_setHeld_ne _ hn) (hi.exclusive name).released fun u k n e h => ?_
  refine ⟨broadcast_waiting h, fun hheld => ?_⟩
  rw [setHeld_apply]
  split
  · rfl
  · exact hheld

/-- Everything a step can do: the test of an acquire function, after its entry has been
found or made; a wake-up; a release. -/
theorem step_cases {a : Label T} (hi : Inv s) (h : Step s a s') :
    (∃ t kind name addr table, Tests s a t kind name ∧
      (s.phase t = .outside ∨ ∃ entry, s.phase t = .woken kind name entry) ∧
      Effect s.table name id table ∧ PointsTo table addr name ∧ s.held t name = none ∧
      s' = NameLocks.test { s with table := table } t kind name (some addr)) ∨
    (∃ t kind name entry, a = .wake t ∧ s.phase t = .asleep kind name entry ∧
      s' = { s with phase := Function.update s.phase t (.woken kind name entry) }) ∨
    ∃ t kind name malloc table, a = .release t kind name malloc ∧ s.held t name = some kind ∧
      Effect s.table name (released kind) table ∧
      s' = { table := table
             phase := fun u => (s.phase u).broadcast
             held := setHeld s.held t name none } := by
  obtain ⟨hnext, hmatched⟩ := h
  cases a with
  | acquire t kind name malloc =>
    obtain ⟨hnone, hlen, halloc⟩ := hmatched
    simp only [Computes, next, Option.ite_none_right_eq_some, Option.some.injEq] at hnext
    obtain ⟨⟨hphase, hfresh⟩, hs'⟩ := hnext
    obtain ⟨addr, table, hget, heff, hp⟩ :=
      getEntryLocked_effect hi.wellFormed hlen hfresh halloc
    rw [hget] at hs'
    exact Or.inl ⟨t, kind, name, addr, table, Or.inl ⟨malloc, rfl⟩, Or.inl hphase, heff, hp,
      hnone, hs'.symm⟩
  | wake t =>
    simp only [Computes, next] at hnext
    split at hnext
    · next kind name entry hphase =>
      exact Or.inr (Or.inl ⟨t, kind, name, entry, rfl, hphase, (Option.some.inj hnext).symm⟩)
    · cases hnext
  | retest t =>
    simp only [Computes, next] at hnext
    split at hnext
    · next kind name entry hphase =>
      obtain ⟨⟨addr, rfl, hp⟩, hnone⟩ := hi.waiting t kind name entry (Or.inr hphase)
      exact Or.inl ⟨t, kind, name, addr, s.table, Or.inr ⟨rfl, _, hphase⟩,
        Or.inr ⟨_, hphase⟩, Effect.refl hi.wellFormed name, hp, hnone, (Option.some.inj hnext).symm⟩
    · cases hnext
  | release t kind name malloc =>
    obtain ⟨hsome, hlen, -⟩ := hmatched
    simp only [Computes, next, Option.ite_none_right_eq_some, Option.some.injEq] at hnext
    obtain ⟨⟨-, hfresh⟩, hs'⟩ := hnext
    exact Or.inr (Or.inr ⟨t, kind, name, malloc, _, rfl, hsome,
      releaseRegion_effect kind hi.wellFormed hlen hfresh, hs'.symm⟩)

theorem Inv.step {a : Label T} (hi : Inv s) (h : Step s a s') : Inv s' := by
  rcases step_cases hi h with ⟨t, kind, name, addr, table, -, -, heff, hp, hnone, rfl⟩ |
    ⟨t, kind, name, entry, -, hphase, rfl⟩ | ⟨t, kind, name, malloc, table, -, hsome, heff, rfl⟩
  · exact (hi.extend heff).test hp hnone
  · obtain ⟨⟨addr, rfl, hp⟩, hnone⟩ := hi.waiting t kind name entry (Or.inl hphase)
    exact hi.wait hnone hp (Or.inr rfl)
  · exact hi.release hsome heff

theorem step_grows {a : Label T} (hi : Inv s) (h : Step s a s') :
    keys s.table <:+ keys s'.table := by
  rcases step_cases hi h with ⟨t, kind, name, addr, table, -, -, heff, hp, -, rfl⟩ |
    ⟨t, kind, name, entry, -, -, rfl⟩ | ⟨t, kind, name, malloc, table, -, -, heff, rfl⟩
  · rcases test_cases t kind (hi.extend heff) hp with
      ⟨-, heq⟩ | ⟨-, table', heff', heq⟩
    · rw [heq]
      exact heff.grows
    · rw [heq]
      exact heff.grows.trans heff'.grows
  · exact List.suffix_rfl
  · exact heff.grows

omit [Fintype T] in
theorem waiting_update {p : Phase} {n : Bytes} (hold : ∀ k e, ¬ Waiting s t k n e)
    (hnew : ∀ k e, ¬ (p = .asleep k n e ∨ p = .woken k n e)) (u : T) (k : LockKind)
    (e : Option ℕ) :
    Function.update s.phase t p u = .asleep k n e ∨ Function.update s.phase t p u = .woken k n e ↔
      Waiting s u k n e := by
  by_cases hu : u = t
  · subst hu
    rw [Function.update_self]
    exact iff_of_false (hnew k e) (hold k e)
  · rw [Function.update_of_ne hu]
    exact Iff.rfl

/-- The test of an acquire function on one name leaves every other name alone. -/
theorem test_frame (hi : Inv s) (hp : PointsTo s.table addr name) {n : Bytes} (hn : n ≠ name)
    (hphase : s.phase t = .outside ∨ ∃ entry, s.phase t = .woken kind name entry) :
    lookup (test s t kind name (some addr)).table n = lookup s.table n ∧
      ∀ u, (test s t kind name (some addr)).held u n = s.held u n ∧
        ∀ k e, Waiting (test s t kind name (some addr)) u k n e ↔ Waiting s u k n e := by
  have hself : ∀ k e, ¬ Waiting s t k n e := by
    rintro k e (h | h) <;> rcases hphase with h' | ⟨entry, h'⟩ <;> rw [h] at h' <;> cases h'
    exact hn rfl
  rcases test_cases t kind hi hp with ⟨-, heq⟩ | ⟨-, table, heff, heq⟩
  · rw [heq]
    refine ⟨rfl, fun u => ⟨rfl, waiting_update hself (fun k e => ?_) u⟩⟩
    rintro (h | h) <;> cases h
    exact hn rfl
  · rw [heq]
    refine ⟨heff.others n hn, fun u => ⟨?_, waiting_update hself (fun k e => ?_) u⟩⟩
    · exact (setHeld_apply _ u n).trans (if_neg fun h => hn h.2)
    · rintro (h | h) <;> cases h

/-- A step on one name leaves every other name alone: its entry, its holders and those
who wait for it. -/
theorem step_frame {a : Label T} (hi : Inv s) (h : Step s a s') {n : Bytes}
    (hn : subject s a ≠ some n) :
    lookup s'.table n = lookup s.table n ∧ ∀ u, s'.held u n = s.held u n ∧
      ∀ k e, Waiting s' u k n e ↔ Waiting s u k n e := by
  rcases step_cases hi h with ⟨t, kind, name, addr, table, htests, hphase, heff, hp, hnone, rfl⟩ |
    ⟨t, kind, name, entry, rfl, hphase, rfl⟩ | ⟨t, kind, name, malloc, table, rfl, -, heff, rfl⟩
  · have hne : n ≠ name := fun hname => hn (hname ▸ htests.subject)
    obtain ⟨hl, hrest⟩ := test_frame (hi.extend heff) hp hne hphase
    exact ⟨hl.trans (heff.others n hne), hrest⟩
  · have hne : name ≠ n := fun hname => hn (by simp only [subject, hphase, hname])
    refine ⟨rfl, fun u => ⟨rfl, waiting_update (fun k e => ?_) (fun k e => ?_) u⟩⟩
    · rintro (h | h) <;> rw [hphase] at h <;> cases h
      exact hne rfl
    · rintro (h | h) <;> cases h
      exact hne rfl
  · have hne : n ≠ name := fun hname => hn (congrArg some hname.symm)
    refine ⟨heff.others n hne, fun u => ⟨?_, fun k e => ?_⟩⟩
    · exact (setHeld_apply _ u n).trans (if_neg fun h => hne h.2)
    · exact ⟨broadcast_waiting,
        fun h => Or.inr (by rcases h with h | h <;> simp [Phase.broadcast, h])⟩

/-- The test of an acquire function: the thread waits, or it takes the lock, which nobody
holds in a conflicting kind. -/
theorem step_test {a : Label T} (hi : Inv s) (h : Step s a s') (ht : Tests s a t kind name) :
    ((∃ u kind', s.held u name = some kind' ∧ (kind = .read → kind' = .write)) ∧
      s'.held = s.held ∧ ∃ entry, s'.phase = Function.update s.phase t (.asleep kind name entry)) ∨
    ((∀ u kind', s.held u name = some kind' → kind = .read ∧ kind' = .read) ∧
      s'.held = setHeld s.held t name (some kind) ∧
      s'.phase = Function.update s.phase t .outside) := by
  rcases step_cases hi h with
    ⟨t', kind', name', addr, table, htests, -, heff, hp, hnone, rfl⟩ |
    ⟨t', kind', name', entry, rfl, -, -⟩ | ⟨t', kind', name', malloc, table, rfl, -, -, -⟩
  · obtain ⟨rfl, rfl, rfl⟩ := ht.unique htests
    rcases test_cases t' kind' (hi.extend heff) hp with
      ⟨hbusy, heq⟩ | ⟨hfree, table', heff', heq⟩
    · refine Or.inl ⟨?_, by rw [heq], _, by rw [heq]⟩
      by_contra hno
      refine not_busy_iff.mpr (fun u k hu => ?_) hbusy
      by_contra hk
      refine hno ⟨u, k, hu, fun hr => ?_⟩
      cases k with
      | write => rfl
      | read => exact absurd ⟨hr, rfl⟩ hk
    · exact Or.inr ⟨not_busy_iff.mp hfree, by rw [heq], by rw [heq]⟩
  · rcases ht with ⟨malloc, heq⟩ | ⟨heq, -⟩ <;> cases heq
  · rcases ht with ⟨malloc', heq⟩ | ⟨heq, -⟩ <;> cases heq

omit [Fintype T] in
theorem step_release {malloc : Option ℕ} (h : Step s (.release t kind name malloc) s') :
    s'.held = setHeld s.held t name none ∧ s'.phase = fun u => (s.phase u).broadcast := by
  have hnext := h.1
  simp only [Computes, next, Option.ite_none_right_eq_some, Option.some.injEq] at hnext
  obtain ⟨-, rfl⟩ := hnext
  exact ⟨rfl, rfl⟩

omit [Fintype T] in
theorem step_wake (h : Step s (.wake t) s') : s'.held = s.held ∧
    ∃ kind name entry, s.phase t = .asleep kind name entry ∧
      s'.phase = Function.update s.phase t (.woken kind name entry) := by
  have hnext := h.1
  simp only [Computes, next] at hnext
  split at hnext
  · next kind name entry hphase =>
    cases hnext
    exact ⟨rfl, kind, name, entry, hphase, rfl⟩
  · cases hnext

/-- The test of an acquire function takes the lock exactly when it is free. -/
theorem step_outcome {a : Label T} (hi : Inv s) (h : Step s a s')
    (hnone : s.held t name = none) (ht : Tests s a t kind name) :
    s'.held t name = some kind ↔
      ∀ u kind', s.held u name = some kind' → kind = .read ∧ kind' = .read := by
  rcases step_test hi h ht with ⟨⟨u, kind', hu, hconf⟩, hheld, -⟩ | ⟨hfree, hheld, -⟩
  · rw [hheld, hnone]
    refine iff_of_false (fun heq => nomatch heq) fun hfree => ?_
    obtain ⟨rfl, rfl⟩ := hfree u kind' hu
    exact nomatch hconf rfl
  · rw [hheld]
    exact iff_of_true ((setHeld_apply _ t name).trans (if_pos ⟨rfl, rfl⟩)) hfree

theorem step_not_held {a : Label T} (hi : Inv s) (h : Step s a s')
    (ht : Tests s a t kind name) : s.held t name = none := by
  rcases ht with ⟨malloc, rfl⟩ | ⟨rfl, entry, hphase⟩
  · exact h.2.1
  · exact (hi.waiting t kind name entry (Or.inr hphase)).2

/-- What the table says about the holds, name by name; a name without an entry counts as
an entry with both counters zero. -/
structure Consistent (s : State T) : Prop where
  one_entry : (s.table.map Entry.name).Nodup
  writers_eq : ∀ name, (counts s.table name).1 = (holders s.held .write name).card
  readers_eq : ∀ name, (counts s.table name).2 = (holders s.held .read name).card
  writers_range : ∀ name, (counts s.table name).1 = 0 ∨ (counts s.table name).1 = 1
  exclusion : ∀ name, (counts s.table name).1 = 1 → (counts s.table name).2 = 0
  alone : ∀ t u name kind, s.held t name = some .write → s.held u name = some kind → u = t

omit [DecidableEq T] in
theorem Inv.consistent (hi : Inv s) : Consistent s where
  one_entry := hi.wellFormed.names
  writers_eq name := by rw [hi.counted]; rfl
  readers_eq name := by rw [hi.counted]; rfl
  writers_range name := by
    have hle := (hi.exclusive name).1
    rw [hi.counted]
    omega
  exclusion name := by
    rw [hi.counted]
    exact (hi.exclusive name).2
  alone t u name kind ht hu := by
    obtain ⟨hle, hzero⟩ := hi.exclusive name
    have hmem : t ∈ holders s.held .write name := mem_holders.mpr ht
    cases kind with
    | write => exact Finset.card_le_one.mp hle u (mem_holders.mpr hu) t hmem
    | read =>
      have hpos : 0 < (holders s.held .write name).card := Finset.card_pos.mpr ⟨t, hmem⟩
      have hnone := hzero (Nat.le_antisymm hle hpos)
      exact absurd (mem_holders.mpr hu) (Finset.card_eq_zero.mp hnone ▸ Finset.notMem_empty u)

/-- A step on one name leaves the others alone, and whether a thread gets a lock depends
on the holders of that name only. -/
structure Independent (s : State T) (a : Label T) (s' : State T) : Prop where
  frame : ∀ n, subject s a ≠ some n → lookup s'.table n = lookup s.table n ∧
    ∀ u, s'.held u n = s.held u n ∧ ∀ k e, Waiting s' u k n e ↔ Waiting s u k n e
  outcome : ∀ t kind name, Tests s a t kind name →
    (s'.held t name = some kind ↔
      ∀ u kind', s.held u name = some kind' → kind = .read ∧ kind' = .read)

/-- In every reachable state the lock table counts exactly the holds of the threads, it
never loses or moves an entry, and names are independent. -/
theorem lockTable_consistent {ls : List (Label T)} (h : Run Step (initial T) ls s) :
    Consistent s ∧ (∀ ls' s', Run Step s ls' s' → keys s.table <:+ keys s'.table) ∧
      ∀ a s', Step s a s' → Independent s a s' := by
  have hi : Inv s := h.invariant initial_inv fun _ _ _ => Inv.step
  refine ⟨hi.consistent, fun ls' s' h' => ?_, fun a s' hstep => ⟨?_, ?_⟩⟩
  · refine (h'.invariant (I := fun m => Inv m ∧ keys s.table <:+ keys m.table)
      ⟨hi, List.suffix_rfl⟩ fun m a m' hm hstep => ?_).2
    exact ⟨hm.1.step hstep, hm.2.trans (step_grows hm.1 hstep)⟩
  · exact fun n hn => step_frame hi hstep hn
  · exact fun t kind name ht => step_outcome hi hstep (step_not_held hi hstep ht) ht

/-- A reader waits for a writer of the same name and is woken by its release. -/
def handover : List (Label Bool) :=
  [.acquire true .write [0x61] (some 1), .acquire false .read [0x61] (some 2),
    .release true .write [0x61] (some 2), .retest false]

theorem lockTable_consistent_handover :
    ∃ s : State Bool, follow next (initial Bool) handover = some s ∧
      s.held false [0x61] = some .read ∧ Consistent s := by
  have hrun : Run Step (initial Bool) handover _ :=
    Run.cons ⟨rfl, rfl, by decide, nofun⟩ (Run.cons ⟨rfl, rfl, by decide, nofun⟩
      (Run.cons ⟨rfl, rfl, by decide, nofun⟩ (Run.single ⟨rfl, trivial⟩)))
  exact ⟨_, rfl, rfl, (lockTable_consistent hrun).1⟩

end Invariant

end NervFS.NameLocks
