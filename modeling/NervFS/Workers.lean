import NervFS.Kernel
import NervFS.NameLocks
import NervFS.Handlers
import Mathlib.Data.List.FinRange

/-!
Handlers that run at the same time, in one server process or in several that share the
storage directory. One step is one call: a region of the lock table of the process, one
system call, or one socket write. The kernel keeps the record locks by process and
inode; a process drops them with an unlock or with the close of any descriptor.
-/
namespace NervFS.Workers

open Programs KeyedStore KeyedStore.Semantics Transitions Calls Protocol FileOps Handlers
open Kernel

/-- A request in service: the rest of its handler, what the kernel keeps for it, and the
calls it has made, the oldest first. -/
structure Service where
  prog : Prog Unit
  loc : Local
  log : List Call := []

structure State (P T : Type) where
  storage : Bytes → Node
  locks : P → NameLocks.State T
  records : P → Ino → Option LockKind
  service : T → Service
  /-- The requests in the order in which they got their name locks. -/
  acquired : List T := []

inductive Label (T : Type)
  /-- The next call of a request; `malloc` is the address for a new lock table entry. -/
  | call (t : T) (malloc : Option ℕ)
  /-- A spurious wake-up of a request that waits for a name lock. -/
  | wake (t : T)

/-- A lock table entry can be allocated when the call needs one. -/
def Label.Allocates {T : Type} : Label T → Prop
  | .call _ malloc => malloc ≠ none
  | .wake _ => True

instance {T : Type} (a : Label T) : Decidable a.Allocates :=
  match a with
  | .call _ malloc => inferInstanceAs (Decidable (malloc ≠ none))
  | .wake _ => isTrue trivial

def kindOf : Mode → LockKind
  | .shared => .read
  | .exclusive => .write

/-- A record of another process that excludes a lock of the given kind. -/
def Conflicts : LockKind → Option LockKind → Prop
  | .write, r => r ≠ none
  | .read, r => r = some .write

instance (kind : LockKind) (r : Option LockKind) : Decidable (Conflicts kind r) :=
  match kind with
  | .write => inferInstanceAs (Decidable (r ≠ none))
  | .read => inferInstanceAs (Decidable (r = some .write))

section Steps
variable {P T : Type} [DecidableEq P] [DecidableEq T]

def setRecord (records : P → Ino → Option LockKind) (p : P) (ino : Ino) (r : Option LockKind) :
    P → Ino → Option LockKind :=
  Function.update records p (Function.update (records p) ino r)

/-- The record locks after a call of process `p` and its reply. -/
def recordsAfter (records : P → Ino → Option LockKind) (p : P) :
    (e : Call) → Reply e → P → Ino → Option LockKind
  | .setlkw fd kind, true => setRecord records p fd.ino (some kind)
  | .unlck fd, _ => setRecord records p fd.ino none
  | .close fd, _ => setRecord records p fd.ino none
  | _, _ => records

/-- `F_SETLKW` waits while another process has a conflicting record, unless it fails. -/
def Blocked [Fintype P] (records : P → Ino → Option LockKind) (p : P) (l : Local) : Call → Prop
  | .setlkw fd kind => l.outcomes.setlkws.headD true = true ∧
      ∃ q, q ≠ p ∧ Conflicts kind (records q fd.ino)
  | _ => False

instance [Fintype P] (records : P → Ino → Option LockKind) (p : P) (l : Local) (e : Call) :
    Decidable (Blocked records p l e) :=
  match e with
  | .setlkw fd kind => inferInstanceAs (Decidable (l.outcomes.setlkws.headD true = true ∧
      ∃ q, q ≠ p ∧ Conflicts kind (records q fd.ino)))
  | .clockGettime | .malloc _ | .lockAcquire _ _ | .lockRelease _ _ | .openWrite _
  | .openRead _ | .fstat _ | .mmap _ _ | .munmap _ | .unlck _ | .write _ _ | .fsync _
  | .close _ | .unlink _ | .chmod _ _ | .opendir | .closedir _ | .stat _ | .sockRead _ _
  | .sockWrite _ _ | .sockClose _ | .dispatch _ => isFalse id

namespace State

def setLocks (s : State P T) (p : P) (locks : NameLocks.State T) : State P T :=
  { s with locks := Function.update s.locks p locks }

/-- The reply to the call `e` and what comes after it. -/
def reply (s : State P T) (t : T) (e : Call) (rest : Prog Unit) (loc : Local) : State P T :=
  { s with
    service := Function.update s.service t ⟨rest, loc, (s.service t).log ++ [e]⟩ }

end State

/-- The region of an acquire function that a thread enters or continues. -/
def acquireLabel (locks : NameLocks.State T) (t : T) (kind : LockKind) (name : Bytes)
    (malloc : Option ℕ) : NameLocks.Label T :=
  match locks.phase t with
  | .woken _ _ _ => .retest t
  | _ => .acquire t kind name malloc

variable [Fintype P] (host : Host) (proc : T → P)

/-- The call `e` of `t`, which goes on with `k`. -/
def perform (s : State P T) (t : T) (malloc : Option ℕ) (e : Call)
    (k : Reply e → Prog Unit) : Option (State P T) :=
  match role host e with
  | .own =>
    if Blocked s.records (proc t) (s.service t).loc e then none
    else
      let r := own e (s.service t).loc
      some ({ s with records := recordsAfter s.records (proc t) e r.1 }.reply t e (k r.1) r.2)
  | .acquire name m =>
    (NameLocks.next (s.locks (proc t))
      (acquireLabel (s.locks (proc t)) t (kindOf m) name malloc)).map fun locks =>
      if locks.phase t = .outside then
        let r := own e (s.service t).loc
        { s.setLocks (proc t) locks with acquired := s.acquired ++ [t] }.reply t e (k r.1) r.2
      else s.setLocks (proc t) locks
  | .release name m =>
    (NameLocks.next (s.locks (proc t)) (.release t (kindOf m) name malloc)).map fun locks =>
      let r := own e (s.service t).loc
      (s.setLocks (proc t) locks).reply t e (k r.1) r.2
  | .access name _ =>
    let r := touch host e (s.storage name) (s.service t).loc
    some ({ s with storage := Function.update s.storage name r.2.1 }.reply t e (k r.1) r.2.2)
  | .other => none

def next (s : State P T) : Label T → Option (State P T)
  | .wake t => (NameLocks.next (s.locks (proc t)) (.wake t)).map (s.setLocks (proc t))
  | .call t malloc =>
    match (s.service t).prog with
    | .ret _ => none
    | .stuck => none
    | .call e k => perform host proc s t malloc e k

/-- What an answered call does to the lock table of its process. -/
def MovesLocks (s : State P T) (t : T) (malloc : Option ℕ) (e : Call) (s' : State P T) : Prop :=
  match role host e with
  | .acquire name m => ∃ locks, NameLocks.next (s.locks (proc t))
      (acquireLabel (s.locks (proc t)) t (kindOf m) name malloc) = some locks ∧
      locks.phase t = .outside ∧ s'.locks = Function.update s.locks (proc t) locks
  | .release name m => ∃ locks, NameLocks.next (s.locks (proc t))
      (.release t (kindOf m) name malloc) = some locks ∧
      s'.locks = Function.update s.locks (proc t) locks
  | _ => s'.locks = s.locks

/-- The requests that an answered call adds to those that got their name lock. -/
def acquires (t : T) (e : Call) : List T :=
  match role host e with
  | .acquire _ _ => [t]
  | _ => []

/-- The call `e` of `t` was answered with `r`, as it would be for a handler alone. -/
structure Answers (s : State P T) (t : T) (malloc : Option ℕ) (e : Call)
    (k : Reply e → Prog Unit) (r : Reply e) (l : Local) (s' : State P T) : Prop where
  prog : (s.service t).prog = .call e k
  free : ¬ Blocked s.records (proc t) (s.service t).loc e
  handled : (semantics host).handle e (s.storage, (s.service t).loc) = some (r, s'.storage, l)
  records : s'.records = recordsAfter s.records (proc t) e r
  service : s'.service =
    Function.update s.service t ⟨k r, l, (s.service t).log ++ [e]⟩
  locks : MovesLocks host proc s t malloc e s'
  acquired : s'.acquired = s.acquired ++ acquires host t e

variable {host proc}

omit [DecidableEq P] [DecidableEq T] in
theorem not_blocked {s : State P T} {t : T} {e : Call} {r : Role Bytes}
    (hr : role host e = r) (hne : r ≠ .own) :
    ¬ Blocked s.records (proc t) (s.service t).loc e := by
  cases e with
  | setlkw fd kind => exact absurd hr.symm hne
  | _ => exact id

omit [Fintype P] [DecidableEq T] in
theorem recordsAfter_eq {records : P → Ino → Option LockKind} {p : P} {e : Call} {r : Role Bytes}
    (hr : role host e = r) (hne : r ≠ .own) (reply : Reply e) :
    recordsAfter records p e reply = records := by
  cases e with
  | setlkw fd kind => exact absurd hr.symm hne
  | unlck fd => exact absurd hr.symm hne
  | close fd => exact absurd hr.symm hne
  | _ => rfl

/-- A step wakes a request, leaves one waiting for a name, or answers a call. -/
theorem next_cases {s s' : State P T} {a : Label T} (h : next host proc s a = some s') :
    (∃ t locks, a = .wake t ∧ NameLocks.next (s.locks (proc t)) (.wake t) = some locks ∧
      s' = s.setLocks (proc t) locks) ∨
    (∃ t malloc e k name m locks, a = .call t malloc ∧ (s.service t).prog = .call e k ∧
      role host e = .acquire name m ∧ NameLocks.next (s.locks (proc t))
        (acquireLabel (s.locks (proc t)) t (kindOf m) name malloc) = some locks ∧
      locks.phase t ≠ .outside ∧ s' = s.setLocks (proc t) locks) ∨
    ∃ t malloc e k r l, a = .call t malloc ∧ Answers host proc s t malloc e k r l s' := by
  cases a with
  | wake t =>
    obtain ⟨locks, hlocks, rfl⟩ := Option.map_eq_some_iff.mp h
    exact Or.inl ⟨t, locks, rfl, hlocks, rfl⟩
  | call t malloc =>
    simp only [next] at h
    split at h
    · cases h
    · cases h
    · next e k hp =>
      have hidle := fun hr => handle_idle (M := semantics host) (e := e) hr s.storage
        (s.service t).loc
      unfold perform at h
      split at h
      · next hr =>
        split at h
        · cases h
        · next hfree =>
          cases h
          exact Or.inr (Or.inr ⟨t, malloc, e, k, _, _, rfl, hp, hfree, hidle (idle_own hr), rfl,
            rfl, by simp only [MovesLocks, hr, State.reply],
            by simp only [acquires, hr, State.reply, List.append_nil]⟩)
      · next name m hr =>
        obtain ⟨locks, hlocks, hs'⟩ := Option.map_eq_some_iff.mp h
        split at hs'
        · next hout =>
          subst hs'
          refine Or.inr (Or.inr ⟨t, malloc, e, k, _, _, rfl, hp, not_blocked hr nofun,
            hidle (idle_acquire hr), (recordsAfter_eq hr nofun _).symm, rfl, ?_, ?_⟩)
          · simp only [MovesLocks, hr]
            exact ⟨locks, hlocks, hout, rfl⟩
          · simp only [acquires, hr]
            rfl
        · next hout =>
          subst hs'
          exact Or.inr (Or.inl ⟨t, malloc, e, k, name, m, locks, rfl, hp, hr, hlocks, hout, rfl⟩)
      · next name m hr =>
        obtain ⟨locks, hlocks, rfl⟩ := Option.map_eq_some_iff.mp h
        refine Or.inr (Or.inr ⟨t, malloc, e, k, _, _, rfl, hp, not_blocked hr nofun,
          hidle (idle_release hr), (recordsAfter_eq hr nofun _).symm, rfl, ?_, ?_⟩)
        · simp only [MovesLocks, hr]
          exact ⟨locks, hlocks, rfl⟩
        · simp only [acquires, hr, List.append_nil]
          rfl
      · next name m hr =>
        cases h
        refine Or.inr (Or.inr ⟨t, malloc, e, k, _, _, rfl, hp, not_blocked hr nofun,
          handle_access hr s.storage (s.service t).loc, (recordsAfter_eq hr nofun _).symm, rfl,
          ?_, ?_⟩)
        · simp only [MovesLocks, hr]
          rfl
        · simp only [acquires, hr, List.append_nil]
          rfl
      · cases h

end Steps

/-- A request as a worker takes it over: its connection, header and payload, the time
its service began, and the outcomes that its calls will have. -/
structure Request where
  clientFd : ℕ
  header : Header
  payload : Bytes
  netStart : Timespec
  outcomes : Outcomes

def Request.prog (host : Host) (r : Request) : Prog Unit :=
  dispatchRequestTimed host.root r.clientFd r.header r.payload r.netStart

def Request.loc (r : Request) : Local := { outcomes := r.outcomes }

/-- The payload has the announced length, as a worker makes sure before it dispatches. -/
def Request.Complete (r : Request) : Prop := r.header.payloadLen.toNat = r.payload.length

/-- The requests that name one file. -/
def Request.NamesFile (r : Request) : Prop :=
  r.header.opcode = opReqUpload ∨ r.header.opcode = opReqDownload ∨
    r.header.opcode = opReqDelete ∨ r.header.opcode = opReqChmod

/-- A request with the payload it announces, none of whose calls fails. -/
def plainRequest (clientFd : ℕ) (opcode : UInt16) (payload : Bytes) : Request where
  clientFd := clientFd
  header := ⟨nervfsMagic, nervfsVersion, opcode, UInt32.ofNat payload.length, 0⟩
  payload := payload
  netStart := ⟨0, 0⟩
  outcomes := {}

/-- No request has been served yet and no lock is held. -/
def start {P T : Type} (host : Host) (request : T → Request) (storage : Bytes → Node) :
    State P T where
  storage := storage
  locks _ := NameLocks.initial T
  records _ _ := none
  service t := { prog := (request t).prog host, loc := (request t).loc }

/-- The worker threads of one process: the request that each of them serves, and the
requests that still wait for a worker. -/
structure Pool (W T : Type) where
  sys : State Unit T
  serving : W → Option T
  queue : List T

inductive PoolLabel (W : Type)
  /-- The worker takes the oldest request. -/
  | take (w : W)
  | call (w : W) (malloc : Option ℕ)
  | wake (w : W)
  /-- The worker is done with its request. -/
  | finish (w : W)

def PoolLabel.Allocates {W : Type} : PoolLabel W → Prop
  | .call _ malloc => malloc ≠ none
  | _ => True

instance {W : Type} (a : PoolLabel W) : Decidable a.Allocates :=
  match a with
  | .call _ malloc => inferInstanceAs (Decidable (malloc ≠ none))
  | .take _ | .wake _ | .finish _ => isTrue trivial

section Pool
variable {W T : Type} [DecidableEq W] [DecidableEq T]

/-- The processes of one server: there is only one. -/
abbrev one : T → Unit := fun _ => ()

def poolNext (host : Host) (s : Pool W T) : PoolLabel W → Option (Pool W T)
  | .take w =>
    match s.serving w, s.queue with
    | none, t :: queue =>
      some { s with serving := Function.update s.serving w (some t), queue := queue }
    | _, _ => none
  | .call w malloc =>
    match s.serving w with
    | some t => (next host one s.sys (.call t malloc)).map fun sys => { s with sys := sys }
    | none => none
  | .wake w =>
    match s.serving w with
    | some t => (next host one s.sys (.wake t)).map fun sys => { s with sys := sys }
    | none => none
  | .finish w =>
    match s.serving w with
    | some t =>
      match (s.sys.service t).prog with
      | .ret _ => some { s with serving := Function.update s.serving w none }
      | _ => none
    | none => none

abbrev PoolStep (host : Host) : Pool W T → PoolLabel W → Pool W T → Prop :=
  Where (Computes (poolNext host)) fun _ a _ => a.Allocates

/-- The steps of one server process whose lock table entries can be allocated. -/
abbrev ProcessStep (host : Host) : State Unit T → Label T → State Unit T → Prop :=
  Where (Computes (next host one)) fun _ a _ => a.Allocates

theorem poolStep_process {host : Host} {s s' : Pool W T} {a : PoolLabel W}
    (h : PoolStep host s a s') : ∃ ls, Run (ProcessStep host) s.sys ls s'.sys := by
  obtain ⟨hnext, halloc⟩ := h
  cases a with
  | take w =>
    simp only [Computes, poolNext] at hnext
    split at hnext
    · cases hnext
      exact ⟨[], .nil⟩
    · cases hnext
  | call w malloc =>
    simp only [Computes, poolNext] at hnext
    split at hnext
    · next t _ =>
      obtain ⟨sys, hsys, rfl⟩ := Option.map_eq_some_iff.mp hnext
      exact ⟨[.call t malloc], .single ⟨hsys, halloc⟩⟩
    · cases hnext
  | wake w =>
    simp only [Computes, poolNext] at hnext
    split at hnext
    · next t _ =>
      obtain ⟨sys, hsys, rfl⟩ := Option.map_eq_some_iff.mp hnext
      exact ⟨[.wake t], .single ⟨hsys, trivial⟩⟩
    · cases hnext
  | finish w =>
    simp only [Computes, poolNext] at hnext
    split at hnext
    · split at hnext
      · cases hnext
        exact ⟨[], .nil⟩
      · cases hnext
    · cases hnext

theorem poolRun_process {host : Host} {s s' : Pool W T} {ls : List (PoolLabel W)}
    (h : Run (PoolStep host) s ls s') : ∃ ks, Run (ProcessStep host) s.sys ks s'.sys := by
  obtain ⟨ks, t, hrun, rfl⟩ := h.simulate (R := fun p sys => sys = p.sys)
    (fun p a p' sys hR hstep => by
      obtain ⟨ks, hrun⟩ := poolStep_process hstep
      exact ⟨ks, p'.sys, hR ▸ hrun, rfl⟩) rfl
  exact ⟨ks, hrun⟩

end Pool

/-- All workers are idle and every request of the list waits. -/
def openPool (W : Type) (host : Host) (requests : List Request) (storage : Bytes → Node) :
    Pool W (Fin requests.length) where
  sys := start host (fun t => requests[t]) storage
  serving _ := none
  queue := List.finRange requests.length

end NervFS.Workers
