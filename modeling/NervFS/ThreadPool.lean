import NervFS.Handlers
import NervFS.Lib.LinkedQueue
import NervFS.Lib.Transitions
import Mathlib.Data.Fintype.Basic
import Mathlib.Data.List.Perm.Basic
import Mathlib.Data.List.Nodup
import Mathlib.Data.List.Enum

/-!
The job queue between the accept loop and the workers. Every region under `queue_lock`
is one step; a worker that is signalled, or wakes on its own, is back before the test
of its loop. The number of workers is the size of a type of worker names.
-/
namespace NervFS.ThreadPool

open Transitions LinkedQueue Programs Calls Protocol Handlers

/-- `nervfs_job_t` less its `next` pointer. -/
structure Job where
  clientFd : ℕ
  header : Header
  deriving DecidableEq

/-- Reads the payload of a job and runs the request. The null payload of a request
without one is the empty one. -/
def processJob (root : Bytes) (job : Job) : Prog Unit := do
  let netStart ← clockGettime
  let serve (payload : Bytes) : Prog Unit := do
    dispatchRequestTimed root job.clientFd job.header payload netStart
    sockClose job.clientFd
  if 0 < job.header.payloadLen then
    if ← malloc job.header.payloadLen.toNat then
      match ← recvFull job.clientFd job.header.payloadLen.toNat with
      | none => sockClose job.clientFd
      | some got =>
        if got.length < job.header.payloadLen.toNat then sockClose job.clientFd
        else serve got
    else sockClose job.clientFd
  else serve []

/-- Where `worker_main` stands: about to lock the queue and test its loop, in
`pthread_cond_wait`, in `process_job` with the job at an address, or returned. The
ticket of a job counts the jobs taken before it. -/
inductive Phase
  | testing
  | asleep
  | busy (addr ticket : ℕ)
  | exited
  deriving DecidableEq

/-- The last three fields are history, which no step reads: the jobs submitted, the
jobs taken with their workers, and the jobs processed with their tickets. -/
structure State (W : Type) where
  queue : Queue Job
  poolRunning : Bool
  worker : W → Phase
  submitted : List Job
  taken : List (W × Job)
  processed : List (Job × ℕ)

/-- `malloc` is the address of the new job, and `signalled` the workers that
`pthread_cond_signal` wakes. -/
inductive Label (W : Type)
  | submit (job : Job) (malloc : Option ℕ) (signalled : List W)
  | shutdown
  | test (w : W)
  | wake (w : W)
  | finish (w : W)

def start (W : Type) : State W where
  queue := ⟨fun _ => none, none, none⟩
  poolRunning := true
  worker _ := .testing
  submitted := []
  taken := []
  processed := []

section Steps
variable {W : Type} [DecidableEq W] [Fintype W]

/-- At least one of the sleeping workers wakes, when there is one. -/
def Signals (worker : W → Phase) (signalled : List W) : Prop :=
  (∀ w ∈ signalled, worker w = .asleep) ∧ (signalled = [] → ∀ w, worker w ≠ .asleep)

instance (worker : W → Phase) (signalled : List W) : Decidable (Signals worker signalled) :=
  inferInstanceAs (Decidable (_ ∧ _))

/-- A job that cannot be allocated leaves the pool as it is; its descriptor is closed. -/
def threadpoolSubmit (s : State W) (job : Job) (malloc : Option ℕ) (signalled : List W) :
    Option (State W) :=
  match malloc with
  | none => some s
  | some addr =>
    if s.queue.heap addr = none ∧ Signals s.worker signalled then
      some { s with
        queue := s.queue.enqueue addr job
        worker := fun w => if w ∈ signalled then .testing else s.worker w
        submitted := s.submitted ++ [job] }
    else none

/-- The broadcast wakes all the workers that sleep. -/
def threadpoolShutdown (s : State W) : State W :=
  { s with
    poolRunning := false
    worker := fun w => if s.worker w = .asleep then .testing else s.worker w }

/-- One pass of `worker_main` under the lock, up to the wait, the return or the job. -/
def workerTest (s : State W) (w : W) : Option (State W) :=
  if s.queue.head = none then
    if s.poolRunning then some { s with worker := Function.update s.worker w .asleep }
    else some { s with worker := Function.update s.worker w .exited }
  else
    match s.queue.dequeue with
    | none => none
    | some (addr, job, queue) =>
      some { s with
        queue := queue
        worker := Function.update s.worker w (.busy addr s.taken.length)
        taken := s.taken ++ [(w, job)] }

/-- The end of `process_job`, with the job read through its pointer, and its `free`. -/
def workerFinish (s : State W) (w : W) (addr ticket : ℕ) : Option (State W) :=
  match s.queue.heap addr with
  | none => none
  | some node =>
    some { s with
      queue := s.queue.free addr
      worker := Function.update s.worker w .testing
      processed := s.processed ++ [(node.val, ticket)] }

def next (s : State W) : Label W → Option (State W)
  | .submit job malloc signalled => threadpoolSubmit s job malloc signalled
  | .shutdown => some (threadpoolShutdown s)
  | .test w => if s.worker w = .testing then workerTest s w else none
  | .wake w =>
    if s.worker w = .asleep then
      some { s with worker := Function.update s.worker w .testing }
    else none
  | .finish w =>
    match s.worker w with
    | .busy addr ticket => workerFinish s w addr ticket
    | _ => none

/-- The accept loop submits its jobs before the one shutdown, and they are allocated. -/
def InOrder (s : State W) : Label W → Prop
  | .submit _ malloc _ => s.poolRunning ∧ malloc.isSome
  | .shutdown => s.poolRunning
  | _ => True

instance (s : State W) : (a : Label W) → Decidable (InOrder s a)
  | .submit _ malloc _ => inferInstanceAs (Decidable (s.poolRunning ∧ malloc.isSome))
  | .shutdown => inferInstanceAs (Decidable s.poolRunning)
  | .test _ | .wake _ | .finish _ => inferInstanceAs (Decidable True)

end Steps

/-- A worker that will test its loop without being woken. -/
def Phase.Active : Phase → Prop
  | .testing | .busy _ _ => True
  | .asleep | .exited => False

/-- `as` are the queued nodes and `xs` their jobs. A taken job is in process by the
worker that took it or processed, and never both. -/
structure Inv {W : Type} (s : State W) (as : List ℕ) (xs : List Job) : Prop where
  queue : Represents s.queue as xs
  order : s.submitted = s.taken.map Prod.snd ++ xs
  awake : xs ≠ [] → ∃ w, (s.worker w).Active
  exited : ∀ w, s.worker w = .exited → xs = [] ∧ s.poolRunning = false
  busy : ∀ w a i, s.worker w = .busy a i → a ∉ as ∧ ∃ node, s.queue.heap a = some node ∧
    s.taken[i]? = some (w, node.val) ∧ (node.val, i) ∉ s.processed
  apart : ∀ w w' a i i', s.worker w = .busy a i → s.worker w' = .busy a i' → w = w'
  served : ∀ (i : ℕ) w job, s.taken[i]? = some (w, job) →
    (job, i) ∈ s.processed ∨ ∃ a, s.worker w = .busy a i
  past : ∀ job i, (job, i) ∈ s.processed → ∃ w, s.taken[i]? = some (w, job)
  once : s.processed.Nodup

section Invariant
variable {W : Type} {s s' : State W} {as : List ℕ} {xs : List Job}

theorem start_inv : Inv (start W) [] [] where
  queue := ⟨.nil, List.nodup_nil, rfl⟩
  order := rfl
  awake h := absurd rfl h
  exited _ h := nomatch h
  busy _ _ _ h := nomatch h
  apart _ _ _ _ _ h := nomatch h
  served _ _ _ h := nomatch h
  past _ _ h := nomatch h
  once := List.nodup_nil

theorem Inv.head_none_iff (h : Inv s as xs) : s.queue.head = none ↔ xs = [] := by
  rw [h.queue.head_none_iff, ← List.length_eq_zero_iff, h.queue.length_eq,
    List.length_eq_zero_iff]

/-- Workers that wake up or fall asleep, while no one starts or ends a job. -/
theorem Inv.phases (h : Inv s as xs) {worker : W → Phase} {running : Bool}
    (hbusy : ∀ w a i, worker w = .busy a i ↔ s.worker w = .busy a i)
    (hawake : xs ≠ [] → ∃ w, (worker w).Active)
    (hexited : ∀ w, worker w = .exited → xs = [] ∧ running = false) :
    Inv { s with worker := worker, poolRunning := running } as xs where
  queue := h.queue
  order := h.order
  awake := hawake
  exited := hexited
  busy w a i hw := h.busy w a i ((hbusy w a i).mp hw)
  apart w w' a i i' hw hw' := h.apart w w' a i i' ((hbusy ..).mp hw) ((hbusy ..).mp hw')
  served i w job ht := (h.served i w job ht).imp_right fun ⟨a, hw⟩ => ⟨a, (hbusy w a i).mpr hw⟩
  past := h.past
  once := h.once

variable [DecidableEq W]

theorem Inv.submit [Fintype W] [Nonempty W] {job : Job} {addr : ℕ} {signalled : List W}
    (h : Inv s as xs)
    (hrun : s.poolRunning) (hfresh : s.queue.heap addr = none)
    (hsignals : Signals s.worker signalled) :
    Inv { s with
      queue := s.queue.enqueue addr job
      worker := fun w => if w ∈ signalled then .testing else s.worker w
      submitted := s.submitted ++ [job] } (as ++ [addr]) (xs ++ [job]) := by
  have hrunning : ∀ w, s.worker w ≠ .exited := fun w hw =>
    absurd hrun (by rw [(h.exited w hw).2]; exact Bool.false_ne_true)
  have hbusy : ∀ w a i, (if w ∈ signalled then .testing else s.worker w) = .busy a i ↔
      s.worker w = .busy a i := by
    intro w a i
    split
    · next hw =>
      rw [hsignals.1 w hw]
      constructor <;> exact nofun
    · rfl
  have hw : Inv { s with
      worker := fun w => if w ∈ signalled then .testing else s.worker w
      poolRunning := s.poolRunning } as xs := by
    refine h.phases hbusy (fun hxs => ?_) fun w hw => ?_
    · obtain ⟨w, hw⟩ := h.awake hxs
      refine ⟨w, ?_⟩
      split
      · trivial
      · exact hw
    · split at hw
      · cases hw
      · exact absurd hw (hrunning w)
  exact {
    queue := h.queue.enqueue hfresh job
    order := by rw [← List.append_assoc, ← h.order]
    awake := fun _ => by
      cases hs : signalled with
      | cons w ws =>
        refine ⟨w, ?_⟩
        simp only [List.mem_cons, true_or, if_true]
        trivial
      | nil =>
        obtain ⟨w⟩ := ‹Nonempty W›
        refine ⟨w, ?_⟩
        simp only [List.not_mem_nil, if_false]
        cases hphase : s.worker w with
        | testing => trivial
        | busy a i => trivial
        | asleep => exact absurd hphase (hsignals.2 hs w)
        | exited => exact absurd hphase (hrunning w)
    exited := fun w he => by
      dsimp only at he
      split at he
      · cases he
      · exact absurd he (hrunning w)
    busy := fun w a i hb => by
      obtain ⟨hnot, node, hnode, htaken, hopen⟩ := hw.busy w a i hb
      have hne : a ≠ addr := by
        rintro rfl
        rw [hfresh] at hnode
        cases hnode
      refine ⟨?_, node, (enqueue_heap h.queue hne hnot).trans hnode, htaken, hopen⟩
      rw [List.mem_append, List.mem_singleton]
      exact not_or.mpr ⟨hnot, hne⟩
    apart := hw.apart
    served := hw.served
    past := h.past
    once := h.once }

omit [DecidableEq W] in
theorem Inv.shutdown (h : Inv s as xs) : Inv (threadpoolShutdown s) as xs := by
  refine h.phases (fun w a i => ?_) (fun hxs => ?_) fun w hw => ?_
  · split
    · next hasleep =>
      rw [hasleep]
      constructor <;> exact nofun
    · rfl
  · obtain ⟨w, hw⟩ := h.awake hxs
    refine ⟨w, ?_⟩
    split
    · trivial
    · exact hw
  · split at hw
    · cases hw
    · exact ⟨(h.exited w hw).1, rfl⟩

theorem Inv.move {w : W} {p : Phase} (h : Inv s as xs)
    (hold : ∀ a i, s.worker w ≠ .busy a i) (hnew : ∀ a i, p ≠ .busy a i)
    (hawake : xs ≠ [] → p.Active) (hexited : p = .exited → xs = [] ∧ s.poolRunning = false) :
    Inv { s with worker := Function.update s.worker w p } as xs := by
  refine h.phases (fun v a i => ?_) (fun hxs => ⟨w, ?_⟩) fun v hv => ?_
  · by_cases hvw : v = w
    · subst hvw
      rw [Function.update_self]
      exact iff_of_false (hnew a i) (hold a i)
    · rw [Function.update_of_ne hvw]
  · rw [Function.update_self]
    exact hawake hxs
  · rcases update_eq_iff.mp hv with ⟨-, hp⟩ | ⟨-, hv⟩
    · exact hexited hp
    · exact h.exited v hv

theorem Inv.take {w : W} {addr : ℕ} {job : Job} {queue : Queue Job} {as' : List ℕ}
    {xs' : List Job} (h : Inv s (addr :: as') (job :: xs')) (htest : s.worker w = .testing)
    (hheap : queue.heap = s.queue.heap) (hqueue : Represents queue as' xs') :
    Inv { s with
      queue := queue
      worker := Function.update s.worker w (.busy addr s.taken.length)
      taken := s.taken ++ [(w, job)] } as' xs' := by
  have hnodup := List.nodup_cons.mp h.queue.nodup
  have hnode : ∃ node, s.queue.heap addr = some node ∧ node.val = job := by
    have hc := h.queue.chain
    rw [h.queue.head_eq] at hc
    cases hc with
    | cons ha _ => exact ⟨_, ha, rfl⟩
  have hfresh : ∀ job, (job, s.taken.length) ∉ s.processed := fun job hp => by
    obtain ⟨v, hv⟩ := h.past job _ hp
    rw [List.getElem?_eq_none le_rfl] at hv
    cases hv
  have hold : ∀ {i : ℕ} {v job'}, s.taken[i]? = some (v, job') →
      (s.taken ++ [(w, job)])[i]? = some (v, job') := fun hi => by
    rw [List.getElem?_append_left (List.getElem?_eq_some_iff.mp hi).1]
    exact hi
  have hapart : ∀ v i, s.worker v ≠ .busy addr i := fun v i hv =>
    (h.busy v addr i hv).1 List.mem_cons_self
  refine
    { queue := hqueue, order := by simp [h.order], awake := fun _ => ⟨w, ?_⟩, exited := ?_,
      busy := ?_, apart := ?_, served := ?_, past := ?_, once := h.once }
  · dsimp only
    rw [Function.update_self]
    trivial
  · intro v hset
    rcases update_eq_iff.mp hset with ⟨-, hp⟩ | ⟨-, hv⟩
    · cases hp
    · exact absurd (h.exited v hv).1 nofun
  · intro v a i hset
    rcases update_eq_iff.mp hset with ⟨rfl, hp⟩ | ⟨-, hv⟩
    · obtain ⟨rfl, rfl⟩ := Phase.busy.inj hp
      obtain ⟨node, hnode, rfl⟩ := hnode
      exact ⟨hnodup.1, node, by rw [hheap]; exact hnode, by simp, hfresh _⟩
    · obtain ⟨hnot, node, hnode, htaken, hopen⟩ := h.busy v a i hv
      exact ⟨fun hm => hnot (List.mem_cons_of_mem _ hm), node, by rw [hheap]; exact hnode,
        hold htaken, hopen⟩
  · intro v v' a i i' hset hset'
    rcases update_eq_iff.mp hset with ⟨rfl, hp⟩ | ⟨-, hv⟩ <;>
      rcases update_eq_iff.mp hset' with ⟨rfl, hp'⟩ | ⟨-, hv'⟩
    · rfl
    · obtain ⟨rfl, rfl⟩ := Phase.busy.inj hp
      exact absurd hv' (hapart v' i')
    · obtain ⟨rfl, rfl⟩ := Phase.busy.inj hp'
      exact absurd hv (hapart v i)
    · exact h.apart v v' a i i' hv hv'
  · intro i v job' ht
    dsimp only at ht ⊢
    rcases Nat.lt_or_ge i s.taken.length with hi | hi
    · rw [List.getElem?_append_left hi] at ht
      refine (h.served i v job' ht).imp_right fun ⟨a, hv⟩ => ⟨a, ?_⟩
      refine update_eq_iff.mpr (Or.inr ⟨?_, hv⟩)
      rintro rfl
      rw [htest] at hv
      cases hv
    · rw [List.getElem?_append_right hi, List.getElem?_singleton] at ht
      split at ht
      · next hlast =>
        cases ht
        obtain rfl : s.taken.length = i := by omega
        exact Or.inr ⟨addr, Function.update_self ..⟩
      · cases ht
  · exact fun job' i hp => (h.past job' i hp).imp fun v hv => hold hv

theorem Inv.finish {w : W} {addr ticket : ℕ} {node : Node Job} (h : Inv s as xs)
    (hbusy : s.worker w = .busy addr ticket) (hnode : s.queue.heap addr = some node) :
    Inv { s with
      queue := s.queue.free addr
      worker := Function.update s.worker w .testing
      processed := s.processed ++ [(node.val, ticket)] } as xs := by
  obtain ⟨hnot, node', hnode', htaken, hopen⟩ := h.busy w addr ticket hbusy
  obtain rfl : node' = node := Option.some.inj (hnode'.symm.trans hnode)
  refine
    { queue := h.queue.free hnot, order := h.order, awake := fun _ => ⟨w, ?_⟩, exited := ?_,
      busy := ?_, apart := ?_, served := ?_, past := ?_, once := ?_ }
  · dsimp only
    rw [Function.update_self]
    trivial
  · intro v hset
    rcases update_eq_iff.mp hset with ⟨-, hp⟩ | ⟨-, hv⟩
    · cases hp
    · exact h.exited v hv
  · intro v a i hset
    rcases update_eq_iff.mp hset with ⟨-, hp⟩ | ⟨hvw, hv⟩
    · cases hp
    · obtain ⟨hnot', node'', hnode'', htaken', hopen'⟩ := h.busy v a i hv
      have hne : a ≠ addr := by
        rintro rfl
        exact hvw (h.apart v w a i ticket hv hbusy)
      refine ⟨hnot', node'', (Function.update_of_ne hne ..).trans hnode'', htaken', ?_⟩
      rw [List.mem_append, List.mem_singleton]
      refine not_or.mpr ⟨hopen', fun heq => ?_⟩
      obtain ⟨-, rfl⟩ := Prod.mk.inj heq
      rw [htaken] at htaken'
      exact hvw (Prod.mk.inj (Option.some.inj htaken')).1.symm
  · intro v v' a i i' hset hset'
    rcases update_eq_iff.mp hset with ⟨-, hp⟩ | ⟨-, hv⟩
    · cases hp
    · rcases update_eq_iff.mp hset' with ⟨-, hp'⟩ | ⟨-, hv'⟩
      · cases hp'
      · exact h.apart v v' a i i' hv hv'
  · intro i v job ht
    dsimp only
    rw [List.mem_append, List.mem_singleton]
    rcases h.served i v job ht with hp | ⟨a, hv⟩
    · exact Or.inl (Or.inl hp)
    · by_cases hvw : v = w
      · subst hvw
        obtain ⟨rfl, rfl⟩ := Phase.busy.inj (hv.symm.trans hbusy)
        rw [htaken] at ht
        obtain ⟨-, rfl⟩ := Prod.mk.inj (Option.some.inj ht)
        exact Or.inl (Or.inr rfl)
      · exact Or.inr ⟨a, update_eq_iff.mpr (Or.inr ⟨hvw, hv⟩)⟩
  · intro job i hp
    rcases List.mem_append.mp hp with hp | hp
    · exact h.past job i hp
    · obtain ⟨rfl, rfl⟩ := Prod.mk.inj (List.mem_singleton.mp hp)
      exact ⟨w, htaken⟩
  · rw [List.nodup_append]
    refine ⟨h.once, List.nodup_singleton _, fun p hp q hq => ?_⟩
    rintro rfl
    rw [List.mem_singleton] at hq
    exact hopen (hq ▸ hp)

variable [Fintype W]

theorem test_cases {w : W} (h : next s (.test w) = some s') :
    s.worker w = .testing ∧
      ((∃ p, (∀ a i, p ≠ .busy a i) ∧ (p = .exited → s.poolRunning = false) ∧
          s.queue.head = none ∧ s' = { s with worker := Function.update s.worker w p }) ∨
        ∃ addr job queue, s.queue.dequeue = some (addr, job, queue) ∧
          s' = { s with
            queue := queue
            worker := Function.update s.worker w (.busy addr s.taken.length)
            taken := s.taken ++ [(w, job)] }) := by
  obtain ⟨htest, hs⟩ := Option.ite_none_right_eq_some.mp h
  refine ⟨htest, ?_⟩
  unfold workerTest at hs
  split at hs
  · next hhead =>
    split at hs
    · cases hs
      exact Or.inl ⟨.asleep, nofun, nofun, hhead, rfl⟩
    · next hstop =>
      cases hs
      exact Or.inl ⟨.exited, nofun, fun _ => Bool.eq_false_iff.mpr hstop, hhead, rfl⟩
  · split at hs
    · cases hs
    · next addr job queue hdequeue =>
      cases hs
      exact Or.inr ⟨addr, job, queue, hdequeue, rfl⟩

theorem finish_cases {w : W} (h : next s (.finish w) = some s') :
    ∃ addr ticket node, s.worker w = .busy addr ticket ∧ s.queue.heap addr = some node ∧
      s' = { s with
        queue := s.queue.free addr
        worker := Function.update s.worker w .testing
        processed := s.processed ++ [(node.val, ticket)] } := by
  simp only [next] at h
  split at h
  · next addr ticket hbusy =>
    unfold workerFinish at h
    split at h
    · cases h
    · next node hnode =>
      cases h
      exact ⟨addr, ticket, node, hbusy, hnode, rfl⟩
  · cases h

theorem Inv.step [Nonempty W] {a : Label W} (h : Inv s as xs) (horder : InOrder s a)
    (hnext : next s a = some s') : ∃ as' xs', Inv s' as' xs' := by
  cases a with
  | submit job malloc signalled =>
    obtain ⟨hrun, hmalloc⟩ := horder
    obtain ⟨addr, rfl⟩ := Option.isSome_iff_exists.mp hmalloc
    obtain ⟨⟨hfresh, hsignals⟩, hs⟩ := Option.ite_none_right_eq_some.mp hnext
    cases hs
    exact ⟨_, _, h.submit hrun hfresh hsignals⟩
  | shutdown =>
    cases hnext
    exact ⟨as, xs, h.shutdown⟩
  | test w =>
    obtain ⟨htest, ⟨p, hidle, hstop, hhead, rfl⟩ | ⟨addr, job, queue, hdequeue, rfl⟩⟩ :=
      test_cases hnext
    · have hxs := h.head_none_iff.mp hhead
      refine ⟨as, xs, h.move (fun a i => ?_) hidle (absurd hxs) fun hp => ⟨hxs, hstop hp⟩⟩
      rw [htest]
      exact nofun
    · have hlength := h.queue.length_eq
      cases as with
      | nil =>
        rw [h.queue.dequeue_nil] at hdequeue
        cases hdequeue
      | cons addr' as' =>
        cases xs with
        | nil => cases hlength
        | cons job' xs' =>
          obtain ⟨queue', hdequeue', hheap, hqueue⟩ := h.queue.dequeue
          cases hdequeue'.symm.trans hdequeue
          exact ⟨as', xs', h.take htest hheap hqueue⟩
  | wake w =>
    obtain ⟨hasleep, hs⟩ := Option.ite_none_right_eq_some.mp hnext
    cases hs
    exact ⟨as, xs, h.move (fun a i => by rw [hasleep]; exact nofun) nofun (fun _ => trivial)
      nofun⟩
  | finish w =>
    obtain ⟨addr, ticket, node, hbusy, hnode, rfl⟩ := finish_cases hnext
    exact ⟨as, xs, h.finish hbusy hnode⟩

theorem run_inv [Nonempty W] {ls : List (Label W)}
    (h : Run (Where (Computes next) fun s a _ => InOrder s a) (start W) ls s) :
    ∃ as xs, Inv s as xs :=
  h.invariant (I := fun s => ∃ as xs, Inv s as xs) ⟨_, _, start_inv⟩
    fun _ _ _ ⟨_, _, hi⟩ ⟨hnext, horder⟩ => hi.step horder hnext

/-- The job that a step submits. -/
def Label.job? : Label W → Option Job
  | .submit job _ _ => some job
  | _ => none

theorem step_submitted {a : Label W} (horder : InOrder s a) (hnext : next s a = some s') :
    s'.submitted = s.submitted ++ a.job?.toList := by
  cases a with
  | submit job malloc signalled =>
    obtain ⟨addr, rfl⟩ := Option.isSome_iff_exists.mp horder.2
    obtain ⟨-, hs⟩ := Option.ite_none_right_eq_some.mp hnext
    cases hs
    rfl
  | shutdown =>
    cases hnext
    exact (List.append_nil _).symm
  | test w =>
    obtain ⟨-, ⟨p, -, -, -, rfl⟩ | ⟨addr, job, queue, -, rfl⟩⟩ := test_cases hnext <;>
      exact (List.append_nil _).symm
  | wake w =>
    obtain ⟨-, hs⟩ := Option.ite_none_right_eq_some.mp hnext
    cases hs
    exact (List.append_nil _).symm
  | finish w =>
    obtain ⟨addr, ticket, node, -, -, rfl⟩ := finish_cases hnext
    exact (List.append_nil _).symm

theorem run_submitted {ls : List (Label W)}
    (h : Run (Where (Computes next) fun s a _ => InOrder s a) (start W) ls s) :
    s.submitted = ls.filterMap Label.job? := by
  refine h.traceInvariant (I := fun ls s => s.submitted = ls.filterMap Label.job?) rfl
    fun ls m a t hm ⟨hnext, horder⟩ => ?_
  rw [step_submitted horder hnext, hm, List.filterMap_append]
  cases ha : a.job? <;> simp [ha]

omit [DecidableEq W] [Fintype W] in
/-- Once all workers have returned, what was processed is what was submitted. -/
theorem Inv.drained [Nonempty W] (h : Inv s as xs) (hall : ∀ w, s.worker w = .exited) :
    s.queue.head = none ∧ s.processed.Perm s.submitted.zipIdx := by
  obtain ⟨w⟩ := ‹Nonempty W›
  have hxs := (h.exited w (hall w)).1
  refine ⟨h.head_none_iff.mpr hxs, ?_⟩
  have horder : s.submitted = s.taken.map Prod.snd := by
    rw [h.order, hxs, List.append_nil]
  have hnodup : (s.taken.map Prod.snd).zipIdx.Nodup := by
    refine List.Nodup.of_map Prod.snd ?_
    rw [List.zipIdx_map_snd]
    exact List.nodup_range'
  rw [horder, List.perm_ext_iff_of_nodup h.once hnodup]
  rintro ⟨job, i⟩
  rw [List.mem_zipIdx_iff_getElem?, List.getElem?_map, Option.map_eq_some_iff]
  constructor
  · intro hp
    obtain ⟨v, hv⟩ := h.past job i hp
    exact ⟨(v, job), hv, rfl⟩
  · rintro ⟨⟨v, job'⟩, hv, rfl⟩
    refine (h.served i v job' hv).resolve_right ?_
    rintro ⟨a, hbusy⟩
    rw [hall v] at hbusy
    cases hbusy

/-- The pool under any number of workers and any interleaving. The queue keeps its
shape and its order, no queued job is left to sleeping workers, and when all workers
have returned every job submitted has been processed once. -/
theorem pool_hands_over [Nonempty W] {ls : List (Label W)}
    (h : Run (Where (Computes next) fun s a _ => InOrder s a) (start W) ls s) :
    s.submitted = ls.filterMap Label.job? ∧
    (∃ as xs, Chain s.queue.heap s.queue.head as xs ∧
      (s.queue.head = none ↔ s.queue.tail = none) ∧ s.queue.tail = as.getLast? ∧
      s.submitted = s.taken.map Prod.snd ++ xs) ∧
    (∀ w addr ticket, s.worker w = .busy addr ticket → ∃ node, s.queue.heap addr = some node ∧
      s.taken[ticket]? = some (w, node.val)) ∧
    (s.queue.head ≠ none → ∃ w, (s.worker w).Active) ∧
    ((∀ w, s.worker w = .exited) →
      s.queue.head = none ∧ s.processed.Perm s.submitted.zipIdx) := by
  obtain ⟨as, xs, hi⟩ := run_inv h
  refine ⟨run_submitted h, ⟨as, xs, hi.queue.chain, ?_, hi.queue.tail, hi.order⟩, ?_, ?_,
    hi.drained⟩
  · rw [hi.queue.head_none_iff, hi.queue.tail_none_iff]
  · intro w addr ticket hbusy
    obtain ⟨-, node, hnode, htaken, -⟩ := hi.busy w addr ticket hbusy
    exact ⟨node, hnode, htaken⟩
  · exact fun hhead => hi.awake fun hxs => hhead (hi.head_none_iff.mpr hxs)

end Invariant

def sampleJob (clientFd : ℕ) : Job :=
  ⟨clientFd, ⟨nervfsMagic, nervfsVersion, opReqList, 0, 0⟩⟩

/-- Two workers, two jobs finished in the other order, and a wake-up for nothing. -/
def sampleDrain : List (Label Bool) :=
  [.test false, .submit (sampleJob 4) (some 0) [false], .submit (sampleJob 5) (some 1) [],
    .test true, .test false, .finish false, .finish true, .test true, .wake true, .test false,
    .shutdown, .test true, .test false]

theorem sampleDrain_exits :
    (follow (guarded next InOrder) (start Bool) sampleDrain).map
      (fun s => (s.worker false, s.worker true)) = some (.exited, .exited) := by
  decide +kernel

theorem pool_hands_over_drained :
    ∃ s, follow next (start Bool) sampleDrain = some s ∧ s.queue.head = none ∧
      s.processed.Perm s.submitted.zipIdx := by
  obtain ⟨s, hs, hend⟩ := Option.map_eq_some_iff.mp sampleDrain_exits
  obtain ⟨hfalse, htrue⟩ := Prod.mk.inj hend
  obtain ⟨-, -, -, -, hdrained⟩ := pool_hands_over (run_of_guarded hs)
  refine ⟨s, follow_of_guarded hs, hdrained fun w => ?_⟩
  cases w
  · exact hfalse
  · exact htrue

end NervFS.ThreadPool
