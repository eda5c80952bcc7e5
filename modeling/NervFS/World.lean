import NervFS.Listings
import NervFS.Sections
import Mathlib.Data.List.Sort

/-!
The server between two requests: a storage directory with finitely many entries, and the
locks that are held on its names. Here a directory can also be read as a whole. A handler
that is a section of the keyed store does here what it does there, never waits for a lock
that an earlier request left behind, and leaves none behind itself.
-/
namespace NervFS.World

open Programs KeyedStore KeyedStore.Semantics Calls Protocol FileOps Handlers Kernel Responses
open Listings

structure Server where
  files : Storage := ∅
  held : List (Bytes × Mode) := []

/-- A hold of the name need not wait: all holds of it are shared. -/
def Grants (held : List (Bytes × Mode)) (name : Bytes) (m : Mode) : Prop :=
  ∀ h ∈ held, h.1 = name → h.2 = .shared ∧ m = .shared

instance (held : List (Bytes × Mode)) (name : Bytes) (m : Mode) :
    Decidable (Grants held name m) :=
  inferInstanceAs (Decidable (∀ h ∈ held, h.1 = name → h.2 = .shared ∧ m = .shared))

/-- The names of the files that are there. -/
def names (s : Storage) : List Bytes := s.keys.filter fun n => (node s n).current.isSome

/-- The order in which a directory stream delivers its names is up to the kernel. -/
def arrange (order names : List Bytes) : List Bytes :=
  names.insertionSort fun a b => order.idxOf a ≤ order.idxOf b

def popDir (l : Local) : Local :=
  { l with outcomes :=
    { l.outcomes with opendirs := l.outcomes.opendirs.tail, orders := l.outcomes.orders.tail } }

/-- The names that a directory stream delivers. -/
def stream (s : Storage) (l : Local) : List Bytes :=
  arrange (l.outcomes.orders.headD []) (dotName :: dotDotName :: names s)

def openDirectory (s : Server) (l : Local) : Option (Dir × List Bytes) × Local :=
  (if l.outcomes.opendirs.headD true then some (⟨l.offsets.length⟩, stream s.files l) else none,
    popDir l)

/-- The calls on the directory as a whole. -/
def directory : (e : Call) → Server × Local → Option (Reply e × Server × Local)
  | .opendir, (s, l) => some ((openDirectory s l).1, s, (openDirectory s l).2)
  | _, _ => none

/-- The answer to a call of the handler that is running; `none` while it has to wait. -/
def exec (host : Host) (e : Call) (s : Server × Local) : Option (Reply e × Server × Local) :=
  match role host e with
  | .access k _ =>
    let r := touch host e (node s.1.files k) s.2
    some (r.1, { s.1 with files := s.1.files.insert k r.2.1 }, r.2.2)
  | .acquire k m =>
    if Grants s.1.held k m then
      some ((own e s.2).1, { s.1 with held := (k, m) :: s.1.held }, (own e s.2).2)
    else none
  | .release k m =>
    some ((own e s.2).1, { s.1 with held := s.1.held.erase (k, m) }, (own e s.2).2)
  | .own => some ((own e s.2).1, s.1, (own e s.2).2)
  | .other => directory e s

theorem node_insert (s : Storage) (name : Bytes) (v : Node) :
    node (s.insert name v) = Function.update (node s) name v := by
  funext n
  unfold node
  by_cases hn : n = name
  · subst hn
    rw [AList.lookup_insert, Function.update_self, Option.getD_some]
  · rw [AList.lookup_insert_ne hn, Function.update_of_ne hn]

theorem node_insert_same (s : Storage) (name : Bytes) :
    node (s.insert name (node s name)) = node s := by
  rw [node_insert, Function.update_eq_self]

theorem mem_names {s : Storage} {name : Bytes} :
    name ∈ names s ↔ (node s name).current ≠ none := by
  unfold names
  rw [List.mem_filter, Option.isSome_iff_ne_none]
  constructor
  · exact And.right
  · intro h
    refine ⟨?_, h⟩
    by_contra hout
    apply h
    unfold node
    rw [AList.lookup_eq_none.mpr hout, Option.getD_none]

theorem names_nodup (s : Storage) : (names s).Nodup := s.nodupKeys.filter _

theorem stream_perm (s : Storage) (l : Local) :
    (stream s l).Perm (dotName :: dotDotName :: names s) := List.perm_insertionSort ..

section Sectioned
variable {host : Host}

theorem exec_own {e : Call} (h : role host e = .own) (s : Server) (l : Local) :
    exec host e (s, l) = some ((own e l).1, s, (own e l).2) := by
  simp only [exec, h]

theorem exec_access {e : Call} {name : Bytes} {m : Mode} (h : role host e = .access name m)
    (s : Server) (l : Local) :
    exec host e (s, l) = some ((touch host e (node s.files name) l).1,
      { s with files := s.files.insert name (touch host e (node s.files name) l).2.1 },
      (touch host e (node s.files name) l).2.2) := by
  simp only [exec, h]

theorem exec_acquire {e : Call} {name : Bytes} {m : Mode} (h : role host e = .acquire name m)
    {s : Server} (hs : Grants s.held name m) (l : Local) :
    exec host e (s, l) =
      some ((own e l).1, { s with held := (name, m) :: s.held }, (own e l).2) := by
  simp only [exec, h, if_pos hs]

theorem exec_release {e : Call} {name : Bytes} {m : Mode} (h : role host e = .release name m)
    (s : Server) (l : Local) :
    exec host e (s, l) =
      some ((own e l).1, { s with held := s.held.erase (name, m) }, (own e l).2) := by
  simp only [exec, h]

/-- The locks that a handler holds in a phase of its section. -/
def holds : Phase Bytes → List (Bytes × Mode)
  | .inside name m => [(name, m)]
  | _ => []

/-- A section does what it does in the keyed store, and ends without a lock. -/
theorem sectioned_wp {α : Type} {p : Prog α} {c : Phase Bytes}
    (hp : (semantics host).Sectioned c p) {Q : α → (Bytes → Node) × Local → Prop} {s : Server}
    {l : Local} (hheld : s.held = holds c)
    (h : p.wp (semantics host).handle Q (node s.files, l)) :
    p.wp (exec host) (fun a t => t.1.held = [] ∧ Q a (node t.1.files, t.2)) (s, l) := by
  induction p generalizing c s l with
  | ret a =>
    have hend : holds c = [] := by
      cases c with
      | inside name m => exact absurd rfl (hp name m)
      | before => rfl
      | after => rfl
    refine (Program.wp_ret ..).mpr ⟨hheld.trans hend, ?_⟩
    exact (Program.wp_ret ..).mp h
  | stuck => exact hp.elim
  | call e k ih =>
    cases hr : role host e with
    | own =>
      have hnext := Program.wp_of_call h (handle_idle (idle_own hr) (node s.files) l)
      exact Program.wp_call (exec_own hr s l) (ih _ (sectioned_own hp hr l) hheld hnext)
    | acquire name m =>
      obtain ⟨rfl, -, hk⟩ := sectioned_acquire hp hr l
      have hnext := Program.wp_of_call h (handle_idle (idle_acquire hr) (node s.files) l)
      have hfree : Grants s.held name m := by
        rw [hheld]
        exact nofun
      refine Program.wp_call (exec_acquire hr hfree l) (ih _ hk ?_ hnext)
      change (name, m) :: s.held = [(name, m)]
      rw [hheld]
      rfl
    | release name m =>
      obtain ⟨rfl, hk⟩ := sectioned_release hp hr l
      have hnext := Program.wp_of_call h (handle_idle (idle_release hr) (node s.files) l)
      refine Program.wp_call (exec_release hr s l) (ih _ hk ?_ hnext)
      change s.held.erase (name, m) = []
      rw [hheld]
      exact List.erase_cons_head ..
    | access name m =>
      obtain ⟨m', rfl, -, hk⟩ := sectioned_access hp hr (node s.files name) l
      have hnext := Program.wp_of_call h (handle_access hr (node s.files) l)
      refine Program.wp_call (exec_access hr s l) (ih _ hk hheld ?_)
      rw [node_insert]
      exact hnext
    | other => exact absurd hr (sectioned_not_other hp)

/-- Calls that concern the handler only, wherever they are made. -/
theorem own_wp {α : Type} {p : Prog α} (hp : p.All fun e => role host e = .own)
    {Q : α → (Bytes → Node) × Local → Prop} {s : Server} {l : Local} (hheld : s.held = [])
    (h : p.wp (semantics host).handle Q (node s.files, l)) :
    p.wp (exec host) (fun a t => t.1.held = [] ∧ Q a (node t.1.files, t.2)) (s, l) :=
  sectioned_wp (c := .before) (Sectioned.of_own hp nofun) hheld h

end Sectioned

end NervFS.World
