import NervFS.FileOps
import Mathlib.Data.List.Nodup
import Mathlib.Tactic.Common

/-!
The in-process lock table: a list of entries, one for each name ever touched, that
grows at its head. Every region that the source runs under `lock_table_mutex` is a
function of the table; a region that ends in `pthread_cond_wait` has no next table.
-/
namespace NervFS.LockTable

open Calls FileOps

/-- `file_lock_entry_t` at the address that `malloc` gave it. -/
structure Entry where
  addr : ℕ
  name : Bytes
  writers : ℕ
  readers : ℕ
  deriving DecidableEq

/-- The entries from `lock_table_head` on. -/
abbrev Table := List Entry

/-- The first entry with the name. -/
def lookup (table : Table) (name : Bytes) : Option Entry :=
  table.find? fun e => e.name = name

/-- The entry a pointer points to. -/
def deref (table : Table) (addr : ℕ) : Option Entry :=
  table.find? fun e => e.addr = addr

def modify (table : Table) (addr : ℕ) (f : Entry → Entry) : Table :=
  table.map fun e => if e.addr = addr then f e else e

/-- The pointer to the entry of the name, which is created when there is none; `malloc`
is the address of a new entry, or `none` for the null pointer. -/
def getEntryLocked (table : Table) (name : Bytes) (malloc : Option ℕ) : Option ℕ × Table :=
  match lookup table name with
  | some e => (some e.addr, table)
  | none =>
    match malloc with
    | none => (none, table)
    | some addr => (some addr, ⟨addr, name.take nervfsMaxNameLen, 0, 0⟩ :: table)

/-- What distinguishes the two acquire functions: the condition of the waiting loop and
the update after it. -/
structure Acquire where
  mustWait : Entry → Bool
  take : Entry → Entry

def fileopsLockAcquireWrite : Acquire where
  mustWait e := 0 < e.writers || 0 < e.readers
  take e := { e with writers := 1 }

def fileopsLockAcquireRead : Acquire where
  mustWait e := 0 < e.writers
  take e := { e with readers := e.readers + 1 }

def acquireOf : LockKind → Acquire
  | .write => fileopsLockAcquireWrite
  | .read => fileopsLockAcquireRead

/-- What distinguishes the two release functions: the update of the entry. -/
def fileopsLockReleaseWrite (e : Entry) : Entry := { e with writers := 0 }

def fileopsLockReleaseRead (e : Entry) : Entry :=
  if 0 < e.readers then { e with readers := e.readers - 1 } else e

def releaseOf : LockKind → Entry → Entry
  | .write => fileopsLockReleaseWrite
  | .read => fileopsLockReleaseRead

/-- An acquire function from the test of its loop on; `none` is a wait. -/
def acquireTest (fn : Acquire) (table : Table) (entry : Option ℕ) : Option Table :=
  match entry.bind (deref table) with
  | none => some table
  | some e => if fn.mustWait e then none else some (modify table e.addr fn.take)

/-- The whole region of a release function. -/
def releaseRegion (fn : Entry → Entry) (table : Table) (name : Bytes) (malloc : Option ℕ) :
    Table :=
  match getEntryLocked table name malloc with
  | (none, table) => table
  | (some addr, table) => modify table addr fn

/-- The part of an entry that never changes. -/
def Entry.key (e : Entry) : ℕ × Bytes := (e.addr, e.name)

def keys (table : Table) : List (ℕ × Bytes) := table.map Entry.key

/-- One entry for each name, at its own address. -/
structure WellFormed (table : Table) : Prop where
  names : (table.map Entry.name).Nodup
  addrs : (table.map Entry.addr).Nodup

section Lookup
variable {table : Table} {e : Entry} {name : Bytes} {addr : ℕ} {f : Entry → Entry}

theorem lookup_some (h : lookup table name = some e) : e ∈ table ∧ e.name = name :=
  ⟨List.mem_of_find?_eq_some h, by simpa using List.find?_some h⟩

theorem lookup_none : lookup table name = none ↔ ∀ e ∈ table, e.name ≠ name := by
  simp [lookup, List.find?_eq_none]

theorem WellFormed.eq_of_addr (h : WellFormed table) {e' : Entry} (he : e ∈ table)
    (he' : e' ∈ table) (haddr : e.addr = e'.addr) : e = e' :=
  List.inj_on_of_nodup_map h.addrs he he' haddr

private theorem find?_key {κ : Type} [DecidableEq κ] {key : Entry → κ} {k : κ}
    (hn : (table.map key).Nodup) :
    table.find? (fun e => key e = k) = some e ↔ e ∈ table ∧ key e = k := by
  constructor
  · intro hf
    exact ⟨List.mem_of_find?_eq_some hf, by simpa using List.find?_some hf⟩
  · rintro ⟨hm, hk⟩
    cases hf : table.find? fun e => key e = k with
    | none =>
      have hne := List.find?_eq_none.mp hf e hm
      simp only [hk, decide_true, not_true_eq_false] at hne
    | some e' =>
      have hm' := List.mem_of_find?_eq_some hf
      have hk' : key e' = k := by simpa using List.find?_some hf
      rw [List.inj_on_of_nodup_map hn hm' hm (hk'.trans hk.symm)]

theorem WellFormed.lookup_iff (h : WellFormed table) :
    lookup table name = some e ↔ e ∈ table ∧ e.name = name := find?_key h.names

theorem WellFormed.deref_iff (h : WellFormed table) :
    deref table addr = some e ↔ e ∈ table ∧ e.addr = addr := find?_key h.addrs

theorem modify_keys (hf : ∀ e, (f e).key = e.key) : keys (modify table addr f) = keys table := by
  simp only [keys, modify, List.map_map]
  refine List.map_congr_left fun e _ => ?_
  simp only [Function.comp_apply]
  split
  · exact hf e
  · rfl

theorem wellFormed_of_keys {table' : Table} (hk : keys table' = keys table)
    (h : WellFormed table) : WellFormed table' := by
  have hn := congrArg (List.map Prod.snd) hk
  have ha := congrArg (List.map Prod.fst) hk
  simp only [keys, List.map_map] at hn ha
  constructor
  · change (table'.map (Prod.snd ∘ Entry.key)).Nodup
    rw [hn]
    exact h.names
  · change (table'.map (Prod.fst ∘ Entry.key)).Nodup
    rw [ha]
    exact h.addrs

/-- Changing the entry at one address changes the entry of one name. -/
theorem WellFormed.lookup_modify (h : WellFormed table) (hf : ∀ e, (f e).key = e.key)
    (he : e ∈ table) (name : Bytes) :
    lookup (modify table e.addr f) name =
      if name = e.name then some (f e) else lookup table name := by
  have hwf : WellFormed (modify table e.addr f) := wellFormed_of_keys (modify_keys hf) h
  have hname : ∀ e, (f e).name = e.name := fun e => congrArg Prod.snd (hf e)
  by_cases hn : name = e.name
  · rw [if_pos hn, hwf.lookup_iff]
    refine ⟨List.mem_map.mpr ⟨e, he, if_pos rfl⟩, ?_⟩
    rw [hname, hn]
  · rw [if_neg hn]
    refine Option.ext fun e' => ?_
    rw [hwf.lookup_iff, h.lookup_iff]
    constructor
    · rintro ⟨hm, hname'⟩
      obtain ⟨d, hd, hde⟩ := List.mem_map.mp hm
      split at hde
      · next haddr =>
        rw [h.eq_of_addr hd he haddr] at hde
        rw [← hde, hname] at hname'
        exact absurd hname'.symm hn
      · rw [← hde]
        exact ⟨hd, by rw [hde]; exact hname'⟩
    · rintro ⟨hm, hname'⟩
      refine ⟨List.mem_map.mpr ⟨e', hm, if_neg fun haddr => ?_⟩, hname'⟩
      exact hn (by rw [← hname', h.eq_of_addr hm he haddr])

end Lookup

section Regions
variable {table : Table} {name : Bytes} {malloc : Option ℕ}

theorem take_key (kind : LockKind) (e : Entry) : ((acquireOf kind).take e).key = e.key := by
  cases kind <;> rfl

theorem release_key (kind : LockKind) (e : Entry) : (releaseOf kind e).key = e.key := by
  cases kind with
  | write => rfl
  | read =>
    simp only [releaseOf, fileopsLockReleaseRead]
    split <;> rfl

/-- The counters of a name; a name without an entry has none. -/
def counts (table : Table) (name : Bytes) : ℕ × ℕ :=
  match lookup table name with
  | some e => (e.writers, e.readers)
  | none => (0, 0)

/-- `malloc` gives a new entry an address that no entry has. -/
def Fresh (table : Table) (malloc : Option ℕ) : Prop :=
  ∀ addr ∈ malloc, ∀ e ∈ table, e.addr ≠ addr

/-- What a region on `name` does to the table, `f` being its effect on the counters. -/
structure Effect (table : Table) (name : Bytes) (f : ℕ × ℕ → ℕ × ℕ) (table' : Table) : Prop where
  wellFormed : WellFormed table'
  grows : keys table <:+ keys table'
  own : counts table' name = f (counts table name)
  others : ∀ n, n ≠ name → lookup table' n = lookup table n

/-- The pointer points to an entry of the name. -/
def PointsTo (table : Table) (addr : ℕ) (name : Bytes) : Prop :=
  ∃ e ∈ table, e.addr = addr ∧ e.name = name

theorem PointsTo.grow {table' : Table} {addr : ℕ} (h : PointsTo table addr name)
    (hg : keys table <:+ keys table') : PointsTo table' addr name := by
  obtain ⟨e, he, rfl, rfl⟩ := h
  obtain ⟨e', he', hk⟩ := List.mem_map.mp (hg.subset (List.mem_map_of_mem (f := Entry.key) he))
  exact ⟨e', he', congrArg Prod.fst hk, congrArg Prod.snd hk⟩

theorem counts_of_lookup {e : Entry} (h : lookup table name = some e) :
    counts table name = (e.writers, e.readers) := by
  simp only [counts, h]

theorem Effect.counts_ne {f : ℕ × ℕ → ℕ × ℕ} {table' : Table} (h : Effect table name f table')
    {n : Bytes} (hn : n ≠ name) : counts table' n = counts table n := by
  simp only [counts, h.others n hn]

theorem Effect.refl (h : WellFormed table) (name : Bytes) : Effect table name id table :=
  ⟨h, List.suffix_rfl, rfl, fun _ _ => rfl⟩

theorem Effect.trans {f g : ℕ × ℕ → ℕ × ℕ} {table' table'' : Table}
    (h : Effect table name f table') (k : Effect table' name g table'') :
    Effect table name (fun c => g (f c)) table'' where
  wellFormed := k.wellFormed
  grows := h.grows.trans k.grows
  own := by rw [k.own, h.own]
  others n hn := by rw [k.others n hn, h.others n hn]

/-- What `get_entry_locked` does for a name that fits an entry; it finds or makes none only
when there is none and the allocation fails. -/
theorem getEntryLocked_cases (h : WellFormed table) (hlen : name.length ≤ nervfsMaxNameLen)
    (hfresh : Fresh table malloc) :
    (∃ addr table', getEntryLocked table name malloc = (some addr, table') ∧
      Effect table name id table' ∧ PointsTo table' addr name) ∨
    (malloc = none ∧ lookup table name = none ∧
      getEntryLocked table name malloc = (none, table)) := by
  unfold getEntryLocked
  cases hl : lookup table name with
  | some e =>
    obtain ⟨hm, hname⟩ := lookup_some hl
    exact Or.inl ⟨e.addr, table, rfl, Effect.refl h name, e, hm, rfl, hname⟩
  | none =>
    cases malloc with
    | none => exact Or.inr ⟨rfl, rfl, rfl⟩
    | some addr =>
      have hnew := lookup_none.mp hl
      simp only [List.take_of_length_le hlen]
      have hwf : WellFormed (⟨addr, name, 0, 0⟩ :: table) := by
        refine ⟨List.nodup_cons.mpr ⟨?_, h.names⟩, List.nodup_cons.mpr ⟨?_, h.addrs⟩⟩
        · rintro hm
          obtain ⟨e, he, hname⟩ := List.mem_map.mp hm
          exact hnew e he hname
        · rintro hm
          obtain ⟨e, he, haddr⟩ := List.mem_map.mp hm
          exact hfresh addr rfl e he haddr
      have hhead : lookup (⟨addr, name, 0, 0⟩ :: table) name = some ⟨addr, name, 0, 0⟩ :=
        List.find?_cons_of_pos (by simp)
      refine Or.inl ⟨addr, _, rfl, ⟨hwf, List.suffix_cons _ _, ?_, fun n hn => ?_⟩,
        ⟨addr, name, 0, 0⟩, List.mem_cons_self, rfl, rfl⟩
      · simp only [counts, hhead, hl, id_eq]
      · exact List.find?_cons_of_neg (by simpa using Ne.symm hn)

theorem getEntryLocked_effect (h : WellFormed table) (hlen : name.length ≤ nervfsMaxNameLen)
    (hfresh : Fresh table malloc) (halloc : malloc ≠ none) :
    ∃ addr table', getEntryLocked table name malloc = (some addr, table') ∧
      Effect table name id table' ∧ PointsTo table' addr name := by
  rcases getEntryLocked_cases h hlen hfresh with hfound | ⟨hnone, -⟩
  · exact hfound
  · exact absurd hnone halloc

theorem modify_effect {addr : ℕ} {f : Entry → Entry} {g : ℕ × ℕ → ℕ × ℕ} (h : WellFormed table)
    (hp : PointsTo table addr name) (hf : ∀ e, (f e).key = e.key)
    (hg : ∀ e, ((f e).writers, (f e).readers) = g (e.writers, e.readers)) :
    Effect table name g (modify table addr f) := by
  obtain ⟨e, he, rfl, rfl⟩ := hp
  have hk : keys (modify table e.addr f) = keys table := modify_keys hf
  have hl := h.lookup_modify hf he
  refine ⟨wellFormed_of_keys hk h, hk ▸ List.suffix_rfl, ?_, fun n hn => ?_⟩
  · rw [counts_of_lookup ((hl e.name).trans (if_pos rfl)), hg,
      counts_of_lookup (h.lookup_iff.mpr ⟨he, rfl⟩)]
  · rw [hl, if_neg hn]

/-- The counters as a pair of writers and readers. -/
def Busy : LockKind → ℕ × ℕ → Prop
  | .write, c => 0 < c.1 ∨ 0 < c.2
  | .read, c => 0 < c.1

def taken : LockKind → ℕ × ℕ → ℕ × ℕ
  | .write, c => (1, c.2)
  | .read, c => (c.1, c.2 + 1)

def released : LockKind → ℕ × ℕ → ℕ × ℕ
  | .write, c => (0, c.2)
  | .read, c => (c.1, c.2 - 1)

theorem mustWait_iff (kind : LockKind) (e : Entry) :
    (acquireOf kind).mustWait e ↔ Busy kind (e.writers, e.readers) := by
  cases kind <;> simp [acquireOf, fileopsLockAcquireWrite, fileopsLockAcquireRead, Busy]

theorem acquireTest_busy {addr : ℕ} {kind : LockKind} (h : WellFormed table)
    (hp : PointsTo table addr name) (hb : Busy kind (counts table name)) :
    acquireTest (acquireOf kind) table (some addr) = none := by
  obtain ⟨e, he, rfl, rfl⟩ := hp
  rw [counts_of_lookup (h.lookup_iff.mpr ⟨he, rfl⟩)] at hb
  simp only [acquireTest, Option.bind_some, h.deref_iff.mpr ⟨he, rfl⟩,
    (mustWait_iff kind e).mpr hb, if_true]

theorem acquireTest_free {addr : ℕ} (kind : LockKind) (h : WellFormed table)
    (hp : PointsTo table addr name) (hb : ¬ Busy kind (counts table name)) :
    ∃ table', acquireTest (acquireOf kind) table (some addr) = some table' ∧
      Effect table name (taken kind) table' := by
  obtain ⟨e, he, rfl, rfl⟩ := hp
  rw [counts_of_lookup (h.lookup_iff.mpr ⟨he, rfl⟩)] at hb
  refine ⟨modify table e.addr (acquireOf kind).take, ?_,
    modify_effect h ⟨e, he, rfl, rfl⟩ (take_key kind) fun e => ?_⟩
  · simp only [acquireTest, Option.bind_some, h.deref_iff.mpr ⟨he, rfl⟩,
      if_neg (mt (mustWait_iff kind e).mp hb)]
  · cases kind <;> rfl

/-- A release updates the counters of the name, whoever holds it; a name that has no entry
has counters that the update leaves at zero. -/
theorem releaseRegion_effect (kind : LockKind) (h : WellFormed table)
    (hlen : name.length ≤ nervfsMaxNameLen) (hfresh : Fresh table malloc) :
    Effect table name (released kind) (releaseRegion (releaseOf kind) table name malloc) := by
  rcases getEntryLocked_cases h hlen hfresh with ⟨addr, table', hget, heff, hp⟩ |
    ⟨-, hnone, hget⟩
  · simp only [releaseRegion, hget]
    refine heff.trans (modify_effect heff.wellFormed hp (release_key kind) fun e => ?_)
    cases kind with
    | write => rfl
    | read =>
      simp only [releaseOf, fileopsLockReleaseRead, released]
      split
      · rfl
      · next h0 => rw [Nat.eq_zero_of_not_pos h0]
  · simp only [releaseRegion, hget]
    refine ⟨h, List.suffix_rfl, ?_, fun _ _ => rfl⟩
    simp only [counts, hnone]
    cases kind <;> rfl

end Regions

end NervFS.LockTable
