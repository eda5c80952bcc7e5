import NervFS.NameLocks

/-!
Whether a waiting writer keeps later readers out. Beside the lock table this records
when each thread entered the acquire function it is in, since when a writer that had to
wait for a name has been pending, and since when a reader that has the name was asking
for it. The calls need not be matched and their allocations may fail.
-/
namespace NervFS.PendingWriters

open Transitions Calls FileOps LockTable
open NameLocks (Label Phase test)

structure State (T : Type) where
  sys : NameLocks.State T
  /-- The number of steps so far. -/
  clock : ℕ
  entered : T → ℕ
  /-- A writer that went to sleep is pending until it releases the write lock. -/
  pending : T → Bytes → Option ℕ
  /-- A reader that has its lock, with the time at which it entered. -/
  reading : T → Bytes → Option ℕ

def start (T : Type) : State T where
  sys := NameLocks.initial T
  clock := 0
  entered _ := 0
  pending _ _ := none
  reading _ _ := none

/-- Every reader that has a name entered before the writers that are pending for it. -/
def NoOvertaking {T : Type} (s : State T) : Prop :=
  ∀ w r name i j, s.pending w name = some i → s.reading r name = some j → j ≤ i

/-- The test of a waiting loop that a step begins with: the thread, its request, and the
entry that it looks at. -/
def tested {T : Type} (s : NameLocks.State T) :
    Label T → Option (T × LockKind × Bytes × Option Entry)
  | .acquire t kind name malloc =>
    let (entry, table) := getEntryLocked s.table name malloc
    some (t, kind, name, entry.bind (deref table))
  | .retest t =>
    match s.phase t with
    | .woken kind name entry => some (t, kind, name, entry.bind (deref s.table))
    | _ => none
  | _ => none

variable {T : Type} [DecidableEq T]

def record (f : T → Bytes → Option ℕ) (t : T) (name : Bytes) (v : Option ℕ) :
    T → Bytes → Option ℕ :=
  Function.update f t (Function.update (f t) name v)

/-- The time at which the thread of a step entered its acquire function. -/
def entryTime (s : State T) : Label T → ℕ
  | .acquire _ _ _ _ => s.clock
  | .retest t => s.entered t
  | _ => 0

/-- The records after a test that left the table and the phases `sys`. -/
def afterTest (s : State T) (a : Label T) (sys : NameLocks.State T) (t : T) (kind : LockKind)
    (name : Bytes) : State T :=
  let s' : State T :=
    { s with
      sys := sys
      clock := s.clock + 1
      entered := Function.update s.entered t (entryTime s a) }
  match kind, a with
  | .read, _ =>
    if sys.phase t = .outside then
      { s' with reading := record s.reading t name (some (entryTime s a)) }
    else s'
  | .write, .acquire _ _ _ _ =>
    if sys.phase t = .outside then s'
    else { s' with pending := record s.pending t name (some s.clock) }
  | .write, _ => s'

/-- The records after a step that begins with no test. -/
def afterOther (s : State T) (a : Label T) (sys : NameLocks.State T) : State T :=
  let s' : State T := { s with sys := sys, clock := s.clock + 1 }
  match a with
  | .release t .read name _ => { s' with reading := record s.reading t name none }
  | .release t .write name _ => { s' with pending := record s.pending t name none }
  | _ => s'

def next (s : State T) (a : Label T) : Option (State T) :=
  (NameLocks.next s.sys a).map fun sys =>
    match tested s.sys a with
    | some (t, kind, name, _) => afterTest s a sys t kind name
    | none => afterOther s a sys

/-- A reader that runs the test of its loop while a writer that entered earlier is pending
finds an entry that counts a writer. -/
def Respects (s : State T) (a : Label T) : Prop :=
  match tested s.sys a with
  | some (_, .read, name, entry) =>
    (∃ w, ∃ i ∈ s.pending w name, i < entryTime s a) → ∃ e ∈ entry, 0 < e.writers
  | _ => True

instance [Fintype T] (s : State T) (a : Label T) : Decidable (Respects s a) := by
  unfold Respects
  split <;> infer_instance

theorem record_eq_some {f : T → Bytes → Option ℕ} {t u : T} {name n : Bytes} {v : Option ℕ}
    {i : ℕ} : record f t name v u n = some i ↔
      (u = t ∧ n = name) ∧ v = some i ∨ ¬ (u = t ∧ n = name) ∧ f u n = some i := by
  unfold record
  by_cases hu : u = t
  · subst hu
    rw [Function.update_self, update_eq_iff]
    simp
  · rw [Function.update_of_ne hu]
    simp [hu]

/-- What the records say about time, beside the order of the claims on a name. -/
structure Inv (s : State T) : Prop where
  order : NoOvertaking s
  pending_lt : ∀ w name, ∀ i ∈ s.pending w name, i < s.clock
  reading_lt : ∀ r name, ∀ j ∈ s.reading r name, j < s.clock
  entered_le : ∀ t, s.entered t ≤ s.clock

omit [DecidableEq T] in
theorem start_inv : Inv (start T) where
  order _ _ _ _ _ h := nomatch h
  pending_lt _ _ _ h := nomatch h
  reading_lt _ _ _ h := nomatch h
  entered_le _ := le_rfl

section Step
variable {s s' : State T} {a : Label T}

omit [DecidableEq T] in
/-- A test of a read lock lets the thread pass unless the entry counts a writer. -/
theorem test_passes [DecidableEq T] (s : NameLocks.State T) (t : T) (kind : LockKind)
    (name : Bytes) (entry : Option ℕ) :
    (test s t kind name entry).phase t = .outside ↔
      ∀ e ∈ entry.bind (deref s.table), (acquireOf kind).mustWait e = false := by
  unfold test acquireTest
  cases entry.bind (deref s.table) with
  | none => simp
  | some e => cases hw : (acquireOf kind).mustWait e <;> simp [hw]

/-- A step begins with a test, which the thread passes or not, or it does not. -/
theorem next_cases (hi : Inv s) (h : next s a = some s') :
    (∃ t kind name entry sys, tested s.sys a = some (t, kind, name, entry) ∧
      (sys.phase t = .outside ↔ ∀ e ∈ entry, (acquireOf kind).mustWait e = false) ∧
      entryTime s a ≤ s.clock ∧ s' = afterTest s a sys t kind name) ∨
    (tested s.sys a = none ∧ ∃ sys, s' = afterOther s a sys) := by
  obtain ⟨sys, hsys, rfl⟩ := Option.map_eq_some_iff.mp h
  cases a with
  | acquire t kind name malloc =>
    left
    cases hget : getEntryLocked s.sys.table name malloc with
    | mk entry table =>
      simp only [NameLocks.next, hget, Option.ite_none_right_eq_some, Option.some.injEq] at hsys
      obtain ⟨-, rfl⟩ := hsys
      have ht : tested s.sys (.acquire t kind name malloc) =
          some (t, kind, name, entry.bind (deref table)) := by
        simp only [tested, hget]
      rw [ht]
      exact ⟨t, kind, name, _, _, rfl, test_passes _ t kind name entry, le_rfl, rfl⟩
  | retest t =>
    simp only [NameLocks.next] at hsys
    split at hsys
    · next kind name entry hphase =>
      left
      cases hsys
      have ht : tested s.sys (.retest t) =
          some (t, kind, name, entry.bind (deref s.sys.table)) := by
        simp only [tested, hphase]
      rw [ht]
      exact ⟨t, kind, name, _, _, rfl, test_passes s.sys t kind name entry, hi.entered_le t, rfl⟩
    · cases hsys
  | wake t => exact Or.inr ⟨rfl, sys, rfl⟩
  | release t kind name malloc => exact Or.inr ⟨rfl, sys, rfl⟩

theorem afterOther_claims (s : State T) (a : Label T) (sys : NameLocks.State T) (u : T)
    (name : Bytes) (i : ℕ) :
    ((afterOther s a sys).pending u name = some i → s.pending u name = some i) ∧
      ((afterOther s a sys).reading u name = some i → s.reading u name = some i) := by
  have hnone : ∀ (f : T → Bytes → Option ℕ) (t : T) (n : Bytes),
      record f t n none u name = some i → f u name = some i := by
    intro f t n h
    rcases record_eq_some.mp h with ⟨-, h⟩ | ⟨-, h⟩
    · cases h
    · exact h
  cases a with
  | release t kind n malloc =>
    cases kind with
    | read => exact ⟨id, hnone s.reading t n⟩
    | write => exact ⟨hnone s.pending t n, id⟩
  | _ => exact ⟨id, id⟩

theorem Inv.other (hi : Inv s) (sys : NameLocks.State T) : Inv (afterOther s a sys) := by
  have hclaims := afterOther_claims s a sys
  have hclock : (afterOther s a sys).clock = s.clock + 1 := by
    unfold afterOther
    split <;> rfl
  have hentered : (afterOther s a sys).entered = s.entered := by
    unfold afterOther
    split <;> rfl
  refine ⟨fun w r name i j hw hr => ?_, fun w name i hw => ?_, fun r name j hr => ?_, fun t => ?_⟩
  · exact hi.order w r name i j ((hclaims w name i).1 hw) ((hclaims r name j).2 hr)
  · have h := hi.pending_lt w name i ((hclaims w name i).1 hw)
    omega
  · have h := hi.reading_lt r name j ((hclaims r name j).2 hr)
    omega
  · have h := hi.entered_le t
    rw [hclock, hentered]
    omega

section Test
variable {sys : NameLocks.State T} {t : T} {kind : LockKind} {name : Bytes}
variable {entry : Option Entry}

theorem entered_after (hi : Inv s) (htime : entryTime s a ≤ s.clock) (u : T) :
    Function.update s.entered t (entryTime s a) u ≤ s.clock + 1 := by
  have hu := hi.entered_le u
  by_cases hut : u = t
  · rw [hut, Function.update_self]
    omega
  · rw [Function.update_of_ne hut]
    omega

theorem Inv.idle (hi : Inv s) (sys : NameLocks.State T) (t : T)
    (htime : entryTime s a ≤ s.clock) :
    Inv { s with
      sys := sys, clock := s.clock + 1,
      entered := Function.update s.entered t (entryTime s a) } := by
  refine ⟨hi.order, fun w n i hw => ?_, fun r n j hr => ?_, entered_after hi htime⟩
  · have h := hi.pending_lt w n i hw
    exact Nat.lt_succ_of_lt h
  · have h := hi.reading_lt r n j hr
    exact Nat.lt_succ_of_lt h

/-- A writer that has to wait comes after every reader that has the name. -/
theorem Inv.writer (hi : Inv s) (sys : NameLocks.State T) (t : T) (name : Bytes)
    (htime : entryTime s a ≤ s.clock) :
    Inv (afterTest s a sys t .write name) := by
  have hidle := hi.idle sys t htime
  unfold afterTest
  cases a with
  | acquire u k n malloc =>
    dsimp only
    split
    · exact hidle
    · refine ⟨fun w r n' i j hw hr => ?_, fun w n' i hw => ?_, hidle.reading_lt,
        hidle.entered_le⟩
      · rcases record_eq_some.mp hw with ⟨-, hi'⟩ | ⟨-, hw⟩
        · cases hi'
          exact Nat.le_of_lt (hi.reading_lt r n' j hr)
        · exact hi.order w r n' i j hw hr
      · rcases record_eq_some.mp hw with ⟨-, hi'⟩ | ⟨-, hw⟩
        · cases hi'
          exact Nat.lt_succ_self _
        · exact hidle.pending_lt w n' i hw
  | _ => exact hidle

/-- A reader that passes its test overtakes the pending writers that entered before it. -/
theorem Inv.reader (hi : Inv s) (htested : tested s.sys a = some (t, .read, name, entry))
    (hpass : sys.phase t = .outside ↔ ∀ e ∈ entry, (acquireOf .read).mustWait e = false)
    (htime : entryTime s a ≤ s.clock) :
    (NoOvertaking (afterTest s a sys t .read name) ↔ Respects s a) ∧
      (NoOvertaking (afterTest s a sys t .read name) → Inv (afterTest s a sys t .read name)) := by
  have hidle := hi.idle sys t htime
  have hwait : ∀ e : Entry, (acquireOf .read).mustWait e = false ↔ ¬ 0 < e.writers := by
    intro e
    simp [acquireOf, LockTable.fileopsLockAcquireRead]
  have hrespects : Respects s a ↔ ((∃ w, ∃ i ∈ s.pending w name, i < entryTime s a) →
      ∃ e ∈ entry, 0 < e.writers) := by
    unfold Respects
    rw [htested]
  unfold afterTest
  dsimp only
  split
  · next hout =>
    have hnone : ¬ ∃ e ∈ entry, 0 < e.writers := by
      rintro ⟨e, he, hpos⟩
      exact (hwait e).mp (hpass.mp hout e he) hpos
    constructor
    · rw [hrespects]
      constructor
      · rintro horder ⟨w, i, hw, hlt⟩
        have hle := horder w t name i (entryTime s a) hw
          (record_eq_some.mpr (Or.inl ⟨⟨rfl, rfl⟩, rfl⟩))
        omega
      · intro hresp w r n i j hw hr
        rcases record_eq_some.mp hr with ⟨⟨-, rfl⟩, hj⟩ | ⟨-, hr⟩
        · cases hj
          by_contra hgt
          exact hnone (hresp ⟨w, i, hw, by omega⟩)
        · exact hi.order w r n i j hw hr
    · intro horder
      refine ⟨horder, hidle.pending_lt, fun r n j hr => ?_, hidle.entered_le⟩
      rcases record_eq_some.mp hr with ⟨-, hj⟩ | ⟨-, hr⟩
      · cases hj
        exact Nat.lt_succ_of_le htime
      · exact hidle.reading_lt r n j hr
  · next hin =>
    refine ⟨iff_of_true hidle.order (hrespects.mpr fun _ => ?_), fun _ => hidle⟩
    by_contra hnone
    exact hin (hpass.mpr fun e he => (hwait e).mpr fun hpos => hnone ⟨e, he, hpos⟩)

end Test

/-- A step keeps later readers behind the pending writers exactly when it respects them. -/
theorem Inv.step (hi : Inv s) (h : next s a = some s') :
    (NoOvertaking s' ↔ Respects s a) ∧ (NoOvertaking s' → Inv s') := by
  rcases next_cases hi h with ⟨t, kind, name, entry, sys, htested, hpass, htime, rfl⟩ |
    ⟨htested, sys, rfl⟩
  · cases kind with
    | read => exact hi.reader htested hpass htime
    | write =>
      have hinv := hi.writer sys t name htime
      refine ⟨iff_of_true hinv.order ?_, fun _ => hinv⟩
      unfold Respects
      rw [htested]
      trivial
  · have hinv := hi.other (a := a) sys
    refine ⟨iff_of_true hinv.order ?_, fun _ => hinv⟩
    unfold Respects
    rw [htested]
    trivial

end Step

/-- While every reader that tests after an earlier writer finds a writer counted, no reader
overtakes a pending writer; the first step that does otherwise overtakes. -/
theorem writers_first_iff {s : State T} {ls : List (Label T)}
    (h : Run (Where (Computes next) fun s a _ => Respects s a) (start T) ls s) :
    NoOvertaking s ∧
      ∀ a s', next s a = some s' → (NoOvertaking s' ↔ Respects s a) := by
  have hinv : Inv s := by
    refine h.invariant start_inv fun s a t hi hstep => ?_
    obtain ⟨hnext, hrespects⟩ := hstep
    obtain ⟨hiff, hinv⟩ := hi.step hnext
    exact hinv (hiff.mpr hrespects)
  exact ⟨hinv.order, fun a s' hnext => (hinv.step hnext).1⟩

def sampleName : Bytes := [0x61]

/-- A writer has the name, a second one waits, and a reader comes. -/
def behindWriter : List (Label (Fin 3)) :=
  [.acquire 0 .write sampleName (some 1), .acquire 1 .write sampleName none,
    .acquire 2 .read sampleName none, .release 0 .write sampleName none, .retest 1,
    .release 1 .write sampleName none, .retest 2]

theorem behindWriter_reads :
    (follow (guarded next Respects) (start (Fin 3)) behindWriter).map
      (fun s => (s.reading 2 sampleName, s.pending 1 sampleName)) = some (some 2, none) := by
  decide +kernel

theorem writers_first_behindWriter :
    ∃ s, follow next (start (Fin 3)) behindWriter = some s ∧ s.reading 2 sampleName = some 2 ∧
      NoOvertaking s := by
  obtain ⟨s, hs, hend⟩ := Option.map_eq_some_iff.mp behindWriter_reads
  exact ⟨s, follow_of_guarded hs, congrArg Prod.fst hend, (writers_first_iff (run_of_guarded hs)).1⟩

/-- A thread takes a name that it does not have, releases what it has, and allocations
succeed. -/
def Matched (s : State T) (a : Label T) : Prop := NameLocks.Matched s.sys a s.sys

instance (s : State T) (a : Label T) : Decidable (Matched s a) :=
  match a with
  | .acquire t _ name malloc => inferInstanceAs (Decidable
      (s.sys.held t name = none ∧ name.length ≤ nervfsMaxNameLen ∧ malloc ≠ none))
  | .release t kind name malloc => inferInstanceAs (Decidable
      (s.sys.held t name = some kind ∧ name.length ≤ nervfsMaxNameLen ∧ malloc ≠ none))
  | .wake _ | .retest _ => isTrue trivial

/-- A reader has the name, a writer waits, and a second reader comes. -/
def behindReader : List (Label (Fin 3)) :=
  [.acquire 0 .read sampleName (some 1), .acquire 1 .write sampleName (some 2),
    .acquire 2 .read sampleName (some 3)]

theorem behindReader_reads :
    (follow (guarded next Matched) (start (Fin 3)) behindReader).map
      (fun s => (s.pending 1 sampleName, s.reading 2 sampleName)) = some (some 1, some 2) := by
  decide +kernel

/-- A second reader gets its lock while the writer before it still waits. -/
theorem reader_overtakes :
    ¬ ∀ (ls : List (Label (Fin 3))) (s : State (Fin 3)),
      Run (Where (Computes next) fun s a _ => Matched s a) (start (Fin 3)) ls s →
        NoOvertaking s := by
  intro h
  obtain ⟨s, hs, hend⟩ := Option.map_eq_some_iff.mp behindReader_reads
  obtain ⟨hpending, hreading⟩ := Prod.mk.inj hend
  have hle := h behindReader s (run_of_guarded hs) 1 2 sampleName 1 2 hpending hreading
  omega

end NervFS.PendingWriters
