import NervFS.Handover

/-!
The connections over whole runs of the server process, up to the end of its shutdown.
-/
namespace NervFS.OneOwner

open Programs Transitions DescriptorTable Calls Protocol SelectLoop JobDescriptors Connections
open Handover
open Ledger (Handle)

section Runs
variable {W : Type} [DecidableEq W] [Fintype W] {root : Bytes} {s s' : State W}

theorem Inv.step [Nonempty W] {a : Label W} (h : Inv s) (hstep : next root s a = some s') :
    Inv s' := by
  cases a with
  | connect =>
    cases hstep
    exact h.environment s.running s.sockets _
  | arrive c bytes =>
    obtain ⟨-, hs⟩ := Option.ite_none_right_eq_some.mp hstep
    cases hs
    exact h.environment s.running _ s.connected
  | hangup c =>
    obtain ⟨-, hs⟩ := Option.ite_none_right_eq_some.mp hstep
    cases hs
    exact h.environment s.running _ s.connected
  | interrupt =>
    cases hstep
    exact h.environment false s.sockets s.connected
  | loop choice => exact h.loop (loop_cases hstep)
  | test w =>
    obtain ⟨pool, hpool, rfl⟩ := Option.map_eq_some_iff.mp hstep
    obtain ⟨as, xs, hi⟩ := h.jobs.pool
    have hinv := hi.step (a := .test w) trivial hpool
    obtain ⟨htest, ⟨p, hidle, -, -, rfl⟩ | ⟨addr, job, queue, -, hs⟩⟩ :=
      ThreadPool.test_cases hpool
    · refine h.rests hinv (fun a t => ?_) hidle ?_ fun v hv => Function.update_of_ne hv ..
      · rw [htest]
        exact nofun
      · rw [htest]
        exact nofun
    · exact h.take htest hs hinv
  | wake w =>
    obtain ⟨pool, hpool, rfl⟩ := Option.map_eq_some_iff.mp hstep
    obtain ⟨as, xs, hi⟩ := h.jobs.pool
    have hinv := hi.step (a := .wake w) trivial hpool
    obtain ⟨hasleep, hs⟩ := Option.ite_none_right_eq_some.mp hpool
    cases hs
    refine h.rests hinv (fun a t => ?_) nofun ?_ fun _ _ => rfl
    · rw [hasleep]
      exact nofun
    · rw [hasleep]
      exact nofun
  | call w t reply =>
    change workerCall s w t reply = some s' at hstep
    unfold workerCall at hstep
    split at hstep
    · next a ticket e k hbusy hwork =>
      obtain ⟨q, hq, rfl⟩ := Option.map_eq_some_iff.mp hstep
      exact h.call hbusy hwork hq
    · cases hstep
  | finish w =>
    simp only [next] at hstep
    split at hstep
    · next u hret =>
      obtain ⟨pool, hpool, rfl⟩ := Option.map_eq_some_iff.mp hstep
      obtain ⟨as, xs, hi⟩ := h.jobs.pool
      have hinv := hi.step (a := .finish w) trivial hpool
      obtain ⟨addr, ticket, node, hbusy, -, rfl⟩ := ThreadPool.finish_cases hpool
      exact h.finish hbusy hret hinv
    · cases hstep

theorem run_inv [Nonempty W] {ls : List (Label W)} (h : Run (Step root) (start W) ls s) : Inv s :=
  h.invariant (I := Inv) start_inv fun _ _ _ hi hstep => Inv.step hi hstep

/-- The numbers through which a step reads, writes, selects or closes, with what each of
them has to refer to. -/
def uses (s : State W) : Label W → List (ℕ × Object W)
  | .loop _ =>
    match s.point with
    | .select => (listenFd, .listener) :: (List.range nervfsMaxClients).filterMap fun i =>
        (s.clientFds i).map fun d => (d.num, .conn d.token)
    | .accept _ | .stop => [(listenFd, .listener)]
    | .reject _ d | .discard _ _ d => [(d.num, .conn d.token)]
    | .read _ _ d (.call (.sockRead fd _) _) => [(fd, .conn d.token)]
    | .sweep i => ((s.clientFds i).map fun d => (d.num, .conn d.token)).toList
    | _ => []
  | .call w _ _ =>
    match client s w, s.work w with
    | some d, .call e _ =>
      match e with
      | .sockRead fd _ | .sockWrite fd _ | .sockClose fd => [(fd, .conn d.token)]
      | .fstat fd | .mmap fd _ | .setlkw fd _ | .unlck fd | .write fd _ | .fsync fd
      | .close fd => [(fd.num, .file w)]
      | .closedir dir => [(dir.num, .file w)]
      | _ => []
    | _, _ => []
  | _ => []

omit [Fintype W] in
theorem live {o : Owner W} {d : Handle} (h : Inv s) (ho : holder s o = some d) :
    s.table.get d.num = some (.conn d.token) :=
  connAt_eq_some.mp (h.ledger.live o d ho)

omit [Fintype W] in
theorem loop_uses {c : Choice W} (h : Inv s) (hpoint : s.point ≠ .done) {u : ℕ × Object W}
    (hu : u ∈ uses s (.loop c)) : s.table.get u.1 = some u.2 := by
  have hlisten := h.listening hpoint
  simp only [uses] at hu
  split at hu
  · next hp =>
    rcases List.mem_cons.mp hu with rfl | hu
    · exact hlisten
    · obtain ⟨i, -, hi⟩ := List.mem_filterMap.mp hu
      obtain ⟨d, hd, rfl⟩ := Option.map_eq_some_iff.mp hi
      refine live (o := .slot i) h ?_
      simp [holder, current, hp, hd]
  · rw [List.mem_singleton.mp hu]
    exact hlisten
  · rw [List.mem_singleton.mp hu]
    exact hlisten
  · next ready d hp =>
    rw [List.mem_singleton.mp hu]
    exact live (o := .loop) h (by simp [holder, pending, hp])
  · next ready i d hp =>
    rw [List.mem_singleton.mp hu]
    exact live (o := .loop) h (by simp [holder, pending, hp])
  · next ready i d fd len k hp =>
    rw [List.mem_singleton.mp hu]
    obtain ⟨len', heq⟩ := (h.slots.reading _ _ _ _ hp).1
    cases heq
    exact live (o := .loop) h (by simp [holder, pending, hp])
  · next i hp =>
    obtain ⟨d, hd, rfl⟩ := Option.map_eq_some_iff.mp (Option.mem_toList.mp hu)
    refine live (o := .slot i) h ?_
    simp [holder, current, hp, hd]
  · cases hu

omit [Fintype W] in
theorem call_uses {w : W} {t : Kernel.Transfer} {reply : (e : Call) → Reply e} (h : Inv s)
    {u : ℕ × Object W} (hu : u ∈ uses s (.call w t reply)) : s.table.get u.1 = some u.2 := by
  simp only [uses] at hu
  split at hu
  · next d e k hclient hwork =>
    obtain ⟨a, ticket, hbusy, hd⟩ := busy_of_client hclient
    obtain ⟨d', held, hd', hworks⟩ := (h.working w).busy a ticket hbusy
    obtain rfl := Option.some.inj (hd.symm.trans hd')
    have hadmits : (descriptors d.num).admits held e := by
      have habides := hworks.abides
      rw [hwork] at habides
      exact habides.1
    have hconn : held.client = true → s.table.get d.num = some (.conn d.token) := fun hopen =>
      live (o := .worker w) h (holder_worker.mpr ⟨hclient, hworks.client.mp hopen⟩)
    have hfile : ∀ n, held.file = some n → s.table.get n = some (.file w) := fun n hn =>
      (hworks.file n).mpr hn
    cases e with
    | sockRead fd len =>
      rw [List.mem_singleton.mp hu, hadmits.2]
      exact hconn hadmits.1
    | sockWrite fd buf =>
      rw [List.mem_singleton.mp hu, hadmits.2]
      exact hconn hadmits.1
    | sockClose fd =>
      rw [List.mem_singleton.mp hu, hadmits.2]
      exact hconn hadmits.1
    | fstat fd | mmap fd size | setlkw fd kind | unlck fd | write fd data | fsync fd | close fd
    | closedir fd =>
      rw [List.mem_singleton.mp hu]
      exact hfile _ hadmits
    | _ => cases hu
  · cases hu

/-- What holds of the connections in every reachable state. -/
structure Owned (root : Bytes) (s : State W) : Prop where
  /-- An accepted connection is open or was closed, and never both. -/
  accepted : ∀ c, (∃ n, s.table.get n = some (.conn c)) ↔ c < s.accepted ∧ c ∉ s.closed
  owner : ∀ n c, s.table.get n = some (.conn c) → ∃! o, ∃ d, holder s o = some d ∧ d.token = c
  /-- What is held is open, under the number that is held. -/
  held : ∀ o d, holder s o = some d → s.table.get d.num = some (.conn d.token)
  slots : ∀ i j d d', s.clientFds i = some d → s.clientFds j = some d' → d.num = d'.num → i = j
  closedOnce : s.closed.Nodup
  closedAll : s.point = .done → ∀ c, c ∈ s.closed ↔ c < s.accepted
  used : ∀ a, (next root s a).isSome → ∀ u ∈ uses s a, s.table.get u.1 = some u.2
  requests : s.dispatched.Nodup

/-- The server process under any number of workers: each open connection has one owner,
no step goes through a number that refers to something else, and each connection is
closed once and asked for once. -/
theorem connections_owned [Nonempty W] {ls : List (Label W)}
    (h : Run (Step root) (start W) ls s) : Owned root s := by
  have hi := run_inv h
  have hl := hi.ledger
  refine ⟨fun c => ?_, fun n c hn => ?_, fun o d => live hi, hi.slots.apart, hl.once,
    fun hdone c => ?_, fun a ha u hu => ?_, hi.requests.once⟩
  · constructor
    · rintro ⟨n, hn⟩
      exact hl.fresh n c (connAt_eq_some.mpr hn)
    · rintro ⟨hlt, hopen⟩
      obtain ⟨n, hn⟩ := (hl.accounted c hlt).resolve_left hopen
      exact ⟨n, connAt_eq_some.mp hn⟩
  · obtain ⟨o, ho⟩ := hl.owned n c (connAt_eq_some.mpr hn)
    refine ⟨o, ⟨_, ho, rfl⟩, ?_⟩
    rintro o' ⟨d, hd, rfl⟩
    exact hl.exclusive _ _ _ _ hd ho rfl
  · refine ⟨hl.past c, fun hlt => hl.all_closed (fun o => ?_) hlt⟩
    have hexited := hi.jobs.joined (Or.inr hdone)
    change holder s o = none
    cases o with
    | slot i =>
      have hnone : s.clientFds i = none := hi.slots.swept i (by rw [hdone]; trivial)
      simp [holder, hnone]
    | loop => simp [holder, pending, hdone]
    | job t =>
      obtain ⟨as, xs, hpool⟩ := hi.jobs.pool
      obtain ⟨w⟩ := ‹Nonempty W›
      have hlen : s.handed.length = s.pool.taken.length := by
        rw [hi.jobs.length_eq, hpool.order, (hpool.exited w (hexited w)).1]
        simp
      simp only [holder]
      split
      · rfl
      · exact List.getElem?_eq_none (by omega)
    | worker w => simp [holder, client, hexited w]
  · cases a with
    | loop c =>
      refine loop_uses hi ?_ hu
      intro hp
      change (loopNext s c).isSome at ha
      simp [loopNext, hp] at ha
    | call w t reply => exact call_uses hi hu
    | _ => cases hu

end Runs

/-- Every call succeeds as far as it can, and finds no file. -/
def plainReply : (e : Call) → Reply e
  | .clockGettime => ⟨0, 0⟩
  | .malloc _ => true
  | .lockAcquire _ _ | .lockRelease _ _ | .munmap _ | .fsync _ | .close _ | .closedir _
  | .sockClose _ | .dispatch _ => ()
  | .openWrite _ | .openRead _ | .fstat _ | .mmap _ _ | .write _ _ | .opendir | .stat _
  | .sockRead _ _ => none
  | .setlkw _ _ | .unlck _ | .unlink _ | .chmod _ _ => true
  | .sockWrite _ buf => if h : 0 < buf.length then some ⟨buf.length, h, le_rfl⟩ else none

def sampleHeader : Bytes := serializeHeader ⟨nervfsMagic, nervfsVersion, 0x77, 0, 0⟩

def loops (n : ℕ) : List (Label Unit) := List.replicate n (.loop {})

/-- One client's request is answered by a worker, which closes the connection while the slot is
not cleared yet; another client is still in its slot when the server is interrupted. -/
def sampleLife : List (Label Unit) :=
  [.connect] ++ loops (6 + nervfsMaxClients + 1) ++ [.connect, .arrive 0 sampleHeader] ++
    loops 9 ++ [.loop { malloc := some 0 }, .test ()] ++
    List.replicate 6 (.call () .all plainReply) ++ [.finish ()] ++ loops (nervfsMaxClients + 1) ++
    [.interrupt] ++ loops (nervfsMaxClients + 3) ++ [.test ()] ++ loops 2

def isDone : Point → Bool
  | .done => true
  | _ => false

set_option maxRecDepth 100000 in
theorem sampleLife_ends :
    (follow (next []) (start Unit) sampleLife).map
      (fun s => (isDone s.point, s.accepted, s.closed, s.dispatched)) =
        some (true, 2, [0, 1], [0]) := by
  decide +kernel

theorem connections_owned_drained :
    ∃ s, follow (next []) (start Unit) sampleLife = some s ∧ isDone s.point = true ∧
      s.closed = [0, 1] ∧ Owned [] s := by
  obtain ⟨s, hs, hend⟩ := Option.map_eq_some_iff.mp sampleLife_ends
  obtain ⟨hdone, hend⟩ := Prod.mk.inj hend
  obtain ⟨-, hend⟩ := Prod.mk.inj hend
  exact ⟨s, hs, hdone, (Prod.mk.inj hend).1, connections_owned (run_of_follow hs)⟩

end NervFS.OneOwner
