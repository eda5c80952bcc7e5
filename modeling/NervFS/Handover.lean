import NervFS.Connections

/-!
The jobs of the pool and the connections they were submitted for, and what a worker in
`process_job` may rely on. With the ledger and the slots this makes the invariant of the
whole server process.
-/
namespace NervFS.Handover

open Programs Transitions DescriptorTable Calls Protocol SelectLoop JobDescriptors Connections
open Ledger (Handle)
open ThreadPool (Job Phase processJob)

/-- From the broadcast of `threadpool_shutdown` on. -/
def Stopped : Point → Prop
  | .join | .stop | .done => True
  | _ => False

/-- The jobs are those of the descriptors handed over, one for each connection; what was
processed has its connection closed. -/
structure Jobs {W : Type} (s : State W) : Prop where
  pool : ∃ as xs, ThreadPool.Inv s.pool as xs
  running : Stopped s.point ∨ s.pool.poolRunning = true
  handed : s.handed.map Handle.num = s.pool.submitted.map Job.clientFd
  once : (s.handed.map Handle.token).Nodup
  processed : ∀ job t d, (job, t) ∈ s.pool.processed → s.handed[t]? = some d →
    d.token ∈ s.closed
  joined : s.point = .stop ∨ s.point = .done → ∀ w, s.pool.worker w = .exited

/-- A worker goes on with the job for `d` and holds what it has to. -/
structure Works {W : Type} (s : State W) (w : W) (d : Handle) (held : Held) : Prop where
  abides : Abides (descriptors d.num) Ended held (s.work w)
  client : held.client = true ↔ d.token ∉ s.closed
  dispatched : held.dispatched = true ↔ d.token ∈ s.dispatched
  file : ∀ n, s.table.get n = some (.file w) ↔ held.file = some n

structure Working {W : Type} (s : State W) (w : W) : Prop where
  busy : ∀ a t, s.pool.worker w = .busy a t →
    ∃ d held, s.handed[t]? = some d ∧ Works s w d held
  idle : (∀ a t, s.pool.worker w ≠ .busy a t) → ∀ n, s.table.get n ≠ some (.file w)

/-- A request belongs to a job that was taken. -/
structure Requests {W : Type} (s : State W) : Prop where
  once : s.dispatched.Nodup
  taken : ∀ c ∈ s.dispatched, ∃ t d, t < s.pool.taken.length ∧ s.handed[t]? = some d ∧
    d.token = c

structure Inv {W : Type} [DecidableEq W] (s : State W) : Prop where
  ledger : Ledger.Inv (ledger s)
  slots : Slots s
  jobs : Jobs s
  working : ∀ w, Working s w
  requests : Requests s
  listening : s.point ≠ .done → s.table.get listenFd = some .listener

section Facts
variable {W : Type} {s s' : State W} {w w' : W} {a t : ℕ} {d d' : Handle}

theorem client_busy (h : s.pool.worker w = .busy a t) : client s w = s.handed[t]? := by
  simp only [client, h]

theorem busy_of_client (h : client s w = some d) :
    ∃ a t, s.pool.worker w = .busy a t ∧ s.handed[t]? = some d := by
  unfold client at h
  split at h
  · next a t hw => exact ⟨a, t, hw, h⟩
  · cases h

/-- The client of a worker depends on its job and on the descriptor handed over for it. -/
theorem client_iff (hworker : ∀ a t, s'.pool.worker w = .busy a t ↔ s.pool.worker w = .busy a t)
    (hhanded : ∀ a t, s.pool.worker w = .busy a t → s'.handed[t]? = s.handed[t]?) :
    client s' w = some d ↔ client s w = some d := by
  constructor
  · intro hd
    obtain ⟨a, t, hw, ht⟩ := busy_of_client hd
    have hold := (hworker a t).mp hw
    exact (client_busy hold).trans ((hhanded a t hold).symm.trans ht)
  · intro hd
    obtain ⟨a, t, hw, ht⟩ := busy_of_client hd
    exact (client_busy ((hworker a t).mpr hw)).trans ((hhanded a t hw).trans ht)

theorem Jobs.length_eq (h : Jobs s) : s.handed.length = s.pool.submitted.length := by
  have hlen := congrArg List.length h.handed
  simpa using hlen

/-- The job that a worker reads through its pointer is for the descriptor it was
submitted with. -/
theorem Jobs.ticket (h : Jobs s) (hbusy : s.pool.worker w = .busy a t) :
    ∃ node d, s.pool.queue.heap a = some node ∧ s.handed[t]? = some d ∧
      d.num = node.val.clientFd ∧ s.pool.taken[t]? = some (w, node.val) := by
  obtain ⟨as, xs, hi⟩ := h.pool
  obtain ⟨-, node, hnode, htaken, -⟩ := hi.busy w a t hbusy
  have hsubmitted : s.pool.submitted[t]? = some node.val := by
    rw [hi.order, List.getElem?_append_left, List.getElem?_map, htaken]
    · rfl
    · rw [List.length_map]
      exact (List.getElem?_eq_some_iff.mp htaken).1
  have hnum : (s.handed.map Handle.num)[t]? = some node.val.clientFd := by
    rw [h.handed, List.getElem?_map, hsubmitted]
    rfl
  rw [List.getElem?_map] at hnum
  obtain ⟨d, hd, hdnum⟩ := Option.map_eq_some_iff.mp hnum
  exact ⟨node, d, hnode, hd, hdnum, htaken⟩

theorem Jobs.token_inj {t' : ℕ} (h : Jobs s) (hd : s.handed[t]? = some d)
    (hd' : s.handed[t']? = some d') (heq : d.token = d'.token) : t = t' := by
  have hlt : t < (s.handed.map Handle.token).length := by
    rw [List.length_map]
    exact (List.getElem?_eq_some_iff.mp hd).1
  refine (List.getElem?_inj hlt h.once).mp ?_
  rw [List.getElem?_map, List.getElem?_map, hd, hd']
  exact congrArg some heq

theorem Jobs.client_ne (h : Jobs s) (hne : w ≠ w') (hd : client s w = some d)
    (hd' : client s w' = some d') : d.token ≠ d'.token := by
  obtain ⟨a, t, hw, ht⟩ := busy_of_client hd
  obtain ⟨a', t', hw', ht'⟩ := busy_of_client hd'
  intro heq
  obtain rfl := h.token_inj ht ht' heq
  obtain ⟨node, -, -, -, -, htaken⟩ := h.ticket hw
  obtain ⟨node', -, -, -, -, htaken'⟩ := h.ticket hw'
  rw [htaken] at htaken'
  exact hne (Prod.mk.inj (Option.some.inj htaken')).1

theorem Jobs.taken (h : Jobs s) (hd : s.handed[t]? = some d) (ht : t < s.pool.taken.length) :
    d.token ∈ s.closed ∨ ∃ w, client s w = some d := by
  obtain ⟨as, xs, hi⟩ := h.pool
  obtain ⟨⟨w, job⟩, hget⟩ : ∃ p, s.pool.taken[t]? = some p := ⟨_, List.getElem?_eq_getElem ht⟩
  rcases hi.served t w job hget with hp | ⟨a, hw⟩
  · exact Or.inl (h.processed job t d hp hd)
  · exact Or.inr ⟨w, (client_busy hw).trans hd⟩

theorem token_ne {o : Owner W} (hi : Ledger.Inv (ledger s)) (ho : (ledger s).holder o = some d)
    (hne : o ≠ .worker w) (hd' : client s w = some d') : d'.token ≠ d.token := by
  intro heq
  by_cases hclosed : d'.token ∈ s.closed
  · exact (hi.fresh _ _ (hi.live o d ho)).2 (heq ▸ hclosed)
  · have hheld : (ledger s).holder (.worker w) = some d' := holder_worker.mpr ⟨hd', hclosed⟩
    exact hne (hi.exclusive _ _ _ _ ho hheld heq.symm)

theorem not_handed (hi : Ledger.Inv (ledger s)) (hj : Jobs s)
    (ho : (ledger s).holder .loop = some d) : d.token ∉ s.handed.map Handle.token := by
  intro hm
  obtain ⟨d', hd', heq⟩ := List.mem_map.mp hm
  obtain ⟨t, ht, hget⟩ := List.mem_iff_getElem.mp hd'
  have hget' : s.handed[t]? = some d' := by rw [List.getElem?_eq_getElem ht, hget]
  rcases Nat.lt_or_ge t s.pool.taken.length with hlt | hge
  · rcases hj.taken hget' hlt with hclosed | ⟨w, hw⟩
    · exact (hi.fresh _ _ (hi.live _ d ho)).2 (heq ▸ hclosed)
    · exact token_ne hi ho (by exact nofun) hw heq
  · have hheld : (ledger s).holder (.job t) = some d' := by
      simp only [ledger, holder, if_neg (not_lt.mpr hge), hget']
    cases hi.exclusive _ _ _ _ hheld ho heq

end Facts

section Frames
variable {W : Type} {s s' : State W} {w : W}

/-- A worker is not disturbed while its client is neither closed nor asked for by
others, and nobody else opens or closes its file. -/
theorem Working.frame (h : Working s w)
    (hworker : ∀ a t, s'.pool.worker w = .busy a t ↔ s.pool.worker w = .busy a t)
    (hhanded : ∀ (t : ℕ) d, s.handed[t]? = some d → s'.handed[t]? = some d)
    (hwork : ∀ a t, s.pool.worker w = .busy a t → s'.work w = s.work w)
    (hclosed : ∀ d, client s w = some d → (d.token ∈ s'.closed ↔ d.token ∈ s.closed))
    (hdispatched : ∀ d, client s w = some d →
      (d.token ∈ s'.dispatched ↔ d.token ∈ s.dispatched))
    (htable : ∀ n, s'.table.get n = some (.file w) ↔ s.table.get n = some (.file w)) :
    Working s' w := by
  refine ⟨fun a t hw => ?_, fun hidle n hn => ?_⟩
  · obtain ⟨d, held, hd, hworks⟩ := h.busy a t ((hworker a t).mp hw)
    have hclient : client s w = some d := (client_busy ((hworker a t).mp hw)).trans hd
    refine ⟨d, held, hhanded t d hd, ?_, ?_, ?_, fun n => ?_⟩
    · rw [hwork a t ((hworker a t).mp hw)]
      exact hworks.abides
    · rw [hclosed d hclient]
      exact hworks.client
    · rw [hdispatched d hclient]
      exact hworks.dispatched
    · rw [htable n]
      exact hworks.file n
  · exact h.idle (fun a t hw => hidle a t ((hworker a t).mpr hw)) n ((htable n).mp hn)

/-- The files of a worker after the close of a number that is not one of them. -/
theorem object_close {n : ℕ} {o : Object W} (hn : s.table.get n ≠ some o) (m : ℕ) :
    (s.close n).table.get m = some o ↔ s.table.get m = some o := by
  change (s.table.release n).get m = _ ↔ _
  rw [Table.get_release]
  split
  · next hm =>
    subst hm
    exact iff_of_false nofun hn
  · rfl

theorem object_alloc {o o' : Object W} (ho : o' ≠ o) (m : ℕ) :
    (s.table.alloc o').get m = some o ↔ s.table.get m = some o := by
  rw [Table.get_alloc]
  split
  · next hm =>
    subst hm
    rw [Table.get_lowest]
    exact iff_of_false (fun h => ho (Option.some.inj h)) nofun
  · rfl

end Frames

section Loop
variable {W : Type} [DecidableEq W] {s s' : State W} {d : Handle}

omit [DecidableEq W] in
theorem start_table {n : ℕ} {o : Object W} (h : (start W).table.get n = some o) :
    o = .standard ∨ o = .listener := by
  match n with
  | 0 | 1 | 2 => exact Or.inl (Option.some.inj h).symm
  | 3 => exact Or.inr (Option.some.inj h).symm
  | n + 4 => cases h

omit [DecidableEq W] in
theorem start_ledger : Ledger.Inv (ledger (start W)) := by
  have hholder : ∀ o, (ledger (start W)).holder o = none := fun o => by cases o <;> rfl
  have hopen : ∀ n c, (ledger (start W)).open_ n ≠ some c := fun n c hn => by
    rcases start_table (connAt_eq_some.mp hn) with h | h <;> cases h
  constructor
  · intro o d ho
    rw [hholder o] at ho
    cases ho
  · intro o o' d d' ho
    rw [hholder o] at ho
    cases ho
  · exact fun n c hn => absurd hn (hopen n c)
  · exact fun n c hn => absurd hn (hopen n c)
  · exact fun c hc => absurd hc (Nat.not_lt_zero c)
  · exact nofun
  · exact List.nodup_nil

theorem start_inv : Inv (start W) where
  ledger := start_ledger
  slots := ⟨nofun, nofun, nofun, fun _ _ => rfl, nofun⟩
  jobs := ⟨⟨_, _, ThreadPool.start_inv⟩, Or.inr rfl, rfl, List.nodup_nil, nofun, nofun⟩
  working w := ⟨nofun, fun _ n hn => by rcases start_table hn with h | h <;> cases h⟩
  requests := ⟨List.nodup_nil, nofun⟩
  listening _ := rfl

/-- The loop closes a descriptor that it holds or that is in a slot. -/
theorem Inv.closes {o : Owner W} {p : Point} {fds : ℕ → Option Handle} (h : Inv s)
    (ho : (Connections.ledger s).holder o = some d) (hworker : ∀ w, o ≠ .worker w)
    (hholder : ∀ o', (∀ w, o' ≠ .worker w) →
      holder { s.close d.num with point := p, clientFds := fds } o' =
        if o' = o then none else holder s o')
    (hslots : Slots { s.close d.num with point := p, clientFds := fds })
    (hpoint : ¬ Stopped s.point) (hnext : ¬ Stopped p) :
    Inv { s.close d.num with point := p, clientFds := fds } := by
  have hconn : connAt s d.num = some d.token := h.ledger.live o d ho
  have hget := connAt_eq_some.mp hconn
  have hclosed := closed_close_conn hconn
  refine ⟨?_, hslots, ?_, fun w => ?_, ⟨h.requests.once, h.requests.taken⟩, fun _ => ?_⟩
  · rw [ledger_close { s.close d.num with point := p, clientFds := fds } h.ledger ho rfl rfl rfl
      rfl rfl hholder]
    exact h.ledger.close ho
  · refine ⟨h.jobs.pool, Or.inr (h.jobs.running.resolve_left hpoint), h.jobs.handed, h.jobs.once,
      fun job t d' hp hd' => ?_, ?_⟩
    · change d'.token ∈ (s.close d.num).closed
      rw [hclosed]
      exact List.mem_append_left _ (h.jobs.processed job t d' hp hd')
    · rintro (rfl | rfl) <;> exact absurd trivial hnext
  · refine (h.working w).frame (fun _ _ => Iff.rfl) (fun _ _ => id) (fun _ _ _ => rfl)
      (fun d' hd' => ?_)
      (fun _ _ => Iff.rfl) (object_close ?_)
    · change d'.token ∈ (s.close d.num).closed ↔ _
      rw [hclosed, List.mem_append, List.mem_singleton]
      exact or_iff_left (token_ne h.ledger ho (hworker w) hd')
    · rw [hget]
      exact nofun
  · have hlisten := h.listening fun hdone => hpoint (hdone ▸ trivial)
    refine (object_close ?_ listenFd).mpr hlisten
    rw [hget]
    exact nofun

/-- Moves of the pool and of the loop that start and end no job. -/
theorem Inv.phases {pool : ThreadPool.State W} {p : Point} {work : W → Prog Unit} (h : Inv s)
    (hpool : ∃ as xs, ThreadPool.Inv pool as xs)
    (hworker : ∀ w a t, pool.worker w = .busy a t ↔ s.pool.worker w = .busy a t)
    (hwork : ∀ w a t, s.pool.worker w = .busy a t → work w = s.work w)
    (htaken : pool.taken = s.pool.taken) (hsubmitted : pool.submitted = s.pool.submitted)
    (hprocessed : pool.processed = s.pool.processed)
    (hcurrent : current p = current s.point) (hpending : pending p = pending s.point)
    (hslots : Slots { s with pool := pool, point := p, work := work })
    (hrunning : Stopped p ∨ pool.poolRunning = true)
    (hjoined : p = .stop ∨ p = .done → ∀ w, pool.worker w = .exited)
    (hlisten : p ≠ .done → s.point ≠ .done) :
    Inv { s with pool := pool, point := p, work := work } := by
  refine ⟨?_, hslots, ?_, fun w => ?_, ⟨h.requests.once, ?_⟩, fun hp => h.listening (hlisten hp)⟩
  · have heq : Connections.ledger { s with pool := pool, point := p, work := work } =
        Connections.ledger s := by
      ext o d
      · cases o with
        | slot i => simp only [Connections.ledger, holder, hcurrent]
        | loop => simp only [Connections.ledger, holder, hpending]
        | job t => simp only [Connections.ledger, holder, htaken]
        | worker w =>
          change holder _ (.worker w) = some d ↔ holder s (.worker w) = some d
          have hclient : client { s with pool := pool, point := p, work := work } w = some d ↔
              client s w = some d := client_iff (hworker w) fun _ _ _ => rfl
          rw [holder_worker, holder_worker, hclient]
      all_goals rfl
    exact heq ▸ h.ledger
  · exact ⟨hpool, hrunning, by rw [hsubmitted]; exact h.jobs.handed, h.jobs.once,
      by rw [hprocessed]; exact h.jobs.processed, hjoined⟩
  · exact (h.working w).frame (hworker w) (fun _ _ => id) (hwork w) (fun _ _ => Iff.rfl)
      (fun _ _ => Iff.rfl) fun _ => Iff.rfl
  · rw [htaken]
    exact h.requests.taken

/-- Moves of the loop that start and end no job and keep what it has in process. -/
theorem Inv.go {p : Point} (h : Inv s) (hcurrent : current p = current s.point)
    (hpending : pending p = pending s.point) (hslots : Slots { s with point := p })
    (hrunning : Stopped s.point → Stopped p)
    (hjoined : p = .stop ∨ p = .done → ∀ w, s.pool.worker w = .exited)
    (hlisten : p ≠ .done → s.point ≠ .done) : Inv { s with point := p } :=
  h.phases h.jobs.pool (fun _ _ _ => Iff.rfl) (fun _ _ _ _ => rfl) rfl rfl rfl
    hcurrent hpending hslots
    (h.jobs.running.imp_left hrunning) hjoined hlisten

theorem Inv.environment (h : Inv s) (running : Bool) (sockets : ℕ → Socket) (connected : ℕ) :
    Inv { s with running := running, sockets := sockets, connected := connected } where
  ledger := h.ledger
  slots := ⟨h.slots.bound, h.slots.apart, h.slots.inProcess, h.slots.swept, h.slots.reading⟩
  jobs := ⟨h.jobs.pool, h.jobs.running, h.jobs.handed, h.jobs.once, h.jobs.processed,
    h.jobs.joined⟩
  working w := (h.working w).frame (fun _ _ => Iff.rfl) (fun _ _ => id) (fun _ _ _ => rfl)
    (fun _ _ => Iff.rfl) (fun _ _ => Iff.rfl) fun _ => Iff.rfl
  requests := ⟨h.requests.once, h.requests.taken⟩
  listening := h.listening

/-- A step between the slots and the loop, with no close and no job. -/
theorem Inv.moves {p : Point} {fds : ℕ → Option Handle} (h : Inv s)
    (hledger : Ledger.Inv (Connections.ledger { s with point := p, clientFds := fds }))
    (hslots : Slots { s with point := p, clientFds := fds }) (hpoint : ¬ Stopped s.point)
    (hnext : ¬ Stopped p) : Inv { s with point := p, clientFds := fds } := by
  refine ⟨hledger, hslots, ?_, fun w => ?_,
    ⟨h.requests.once, h.requests.taken⟩, fun _ => ?_⟩
  · refine ⟨h.jobs.pool, Or.inr (h.jobs.running.resolve_left hpoint), h.jobs.handed, h.jobs.once,
      h.jobs.processed, ?_⟩
    rintro (rfl | rfl) <;> exact absurd trivial hnext
  · exact (h.working w).frame (fun _ _ => Iff.rfl) (fun _ _ => id) (fun _ _ _ => rfl)
      (fun _ _ => Iff.rfl)
      (fun _ _ => Iff.rfl) fun _ => Iff.rfl
  · exact h.listening fun hdone => hpoint (hdone ▸ trivial)

omit [DecidableEq W] in
theorem Jobs.taken_le (h : Jobs s) : s.pool.taken.length ≤ s.handed.length := by
  obtain ⟨as, xs, hi⟩ := h.pool
  rw [h.length_eq, hi.order, List.length_append, List.length_map]
  exact Nat.le_add_right ..

omit [DecidableEq W] in
theorem Jobs.busy_lt {w : W} {a t : ℕ} (h : Jobs s) (hw : s.pool.worker w = .busy a t) :
    t < s.pool.taken.length := by
  obtain ⟨node, -, -, -, -, htaken⟩ := h.ticket hw
  exact (List.getElem?_eq_some_iff.mp htaken).1

theorem ledger_submit {pool : ThreadPool.State W} {ready : List ℕ} {i : ℕ} {header : Header}
    (hj : Jobs s) (hp : s.point = .submit ready i d header)
    (hworker : ∀ w a t, pool.worker w = .busy a t ↔ s.pool.worker w = .busy a t)
    (htaken : pool.taken = s.pool.taken) :
    ledger { s with pool := pool, handed := s.handed ++ [d], point := .clear ready i } =
      (ledger s).pass .loop (.job s.handed.length) d := by
  have hle := hj.taken_le
  ext o e
  · change holder _ o = some e ↔
      Function.update (Function.update (holder s) .loop none) (.job s.handed.length) _ o = some e
    rw [update_eq_iff, update_eq_iff]
    cases o with
    | slot j => simp [holder, current, hp]
    | loop => simp [holder, pending]
    | job t =>
      simp only [holder, htaken, Owner.job.injEq, reduceCtorEq, false_and, false_or,
        ne_eq, not_false_eq_true, true_and]
      by_cases ht : t = s.handed.length
      · subst ht
        simp [not_lt.mpr hle]
      · rcases Nat.lt_or_ge t s.handed.length with hlt | hge
        · simp [ht, List.getElem?_append_left hlt]
        · have hnone : (s.handed ++ [d])[t]? = none := by
            rw [List.getElem?_eq_none]
            rw [List.length_append, List.length_singleton]
            omega
          simp [ht, hnone, List.getElem?_eq_none hge]
    | worker w =>
      rw [holder_worker, holder_worker, client_iff (s := s) (hworker w) fun a t hw => ?_]
      · simp
      · exact List.getElem?_append_left (lt_of_lt_of_le (hj.busy_lt hw) hle)
  all_goals rfl

theorem ledger_take {pool : ThreadPool.State W} {work : W → Prog Unit} {w : W} {a : ℕ} {job : Job}
    (hi : Ledger.Inv (ledger s)) (hd : s.handed[s.pool.taken.length]? = some d)
    (hworker : pool.worker = Function.update s.pool.worker w (.busy a s.pool.taken.length))
    (htaken : pool.taken = s.pool.taken ++ [(w, job)]) :
    ledger { s with pool := pool, work := work } =
      (ledger s).pass (.job s.pool.taken.length) (.worker w) d := by
  have hopen : d.token ∉ s.closed := by
    have hheld : (ledger s).holder (.job s.pool.taken.length) = some d := by
      simp [ledger, holder, hd]
    exact (hi.fresh _ _ (hi.live _ d hheld)).2
  ext o e
  · change holder _ o = some e ↔
      Function.update (Function.update (holder s) (.job s.pool.taken.length) none) (.worker w) _ o =
        some e
    rw [update_eq_iff, update_eq_iff]
    cases o with
    | slot j => simp [holder]
    | loop => simp [holder]
    | job t =>
      simp only [holder, htaken, List.length_append, List.length_singleton, Owner.job.injEq,
        reduceCtorEq, false_and, false_or, ne_eq, not_false_eq_true, true_and]
      by_cases ht : t = s.pool.taken.length
      · simp [ht]
      · by_cases hlt : t < s.pool.taken.length
        · simp [hlt, Nat.lt_succ_of_lt hlt]
        · have hnlt : ¬ t < s.pool.taken.length + 1 := by omega
          simp [ht, hlt, hnlt]
    | worker v =>
      by_cases hv : v = w
      · subst hv
        have hclient : client { s with pool := pool, work := work } v = some d := by
          refine (client_busy (a := a) (t := s.pool.taken.length) ?_).trans hd
          change pool.worker v = _
          rw [hworker, Function.update_self]
        rw [holder_worker, hclient]
        constructor
        · rintro ⟨⟨⟩, -⟩
          exact Or.inl ⟨rfl, rfl⟩
        · rintro (⟨-, ⟨⟩⟩ | ⟨hne, -⟩)
          · exact ⟨rfl, hopen⟩
          · exact absurd rfl hne
      · have hclient : client { s with pool := pool, work := work } v = some e ↔
            client s v = some e := by
          refine client_iff (fun a' t => ?_) fun _ _ _ => rfl
          change pool.worker v = _ ↔ _
          rw [hworker, Function.update_of_ne hv]
        rw [holder_worker, holder_worker, hclient]
        simp [hv]
  all_goals rfl

omit [DecidableEq W] in
theorem goes_stopped {p q : Point} (h : Goes s p q) (hp : Stopped p) :
    Stopped q := by
  cases h with
  | joined => trivial
  | _ => exact hp.elim

omit [DecidableEq W] in
theorem goes_joined {p q : Point} (h : Goes s p q) (hq : q = .stop ∨ q = .done) :
    ∀ w, s.pool.worker w = .exited := by
  cases h with
  | joined hall => exact hall
  | _ => rcases hq with hq | hq <;> cases hq

omit [DecidableEq W] in
theorem goes_done {p q : Point} (h : Goes s p q) : p ≠ .done := by
  cases h <;> exact nofun

theorem submit_effect [Fintype W] {pool : ThreadPool.State W} {job : Job} {addr : ℕ}
    {signalled : List W}
    (h : ThreadPool.threadpoolSubmit s.pool job (some addr) signalled = some pool) :
    (∀ w a t, pool.worker w = .busy a t ↔ s.pool.worker w = .busy a t) ∧
      pool.taken = s.pool.taken ∧ pool.processed = s.pool.processed ∧
      pool.submitted = s.pool.submitted ++ [job] ∧ pool.poolRunning = s.pool.poolRunning := by
  obtain ⟨⟨-, hsignals⟩, hs⟩ := Option.ite_none_right_eq_some.mp h
  cases hs
  refine ⟨fun w a t => ?_, rfl, rfl, rfl, rfl⟩
  dsimp only
  split
  · next hw =>
    rw [hsignals.1 w hw]
    exact iff_of_false nofun nofun
  · rfl

theorem Inv.submit [Fintype W] [Nonempty W] {pool : ThreadPool.State W} {ready : List ℕ}
    {i addr : ℕ}
    {header : Header} {signalled : List W} (h : Inv s) (hp : s.point = .submit ready i d header)
    (hslots : Slots { s with pool := pool, handed := s.handed ++ [d], point := .clear ready i })
    (hpool : ThreadPool.threadpoolSubmit s.pool ⟨d.num, header⟩ (some addr) signalled =
      some pool) :
    Inv { s with pool := pool, handed := s.handed ++ [d], point := .clear ready i } := by
  obtain ⟨hworker, htaken, hprocessed, hsubmitted, hrunning⟩ := submit_effect hpool
  have hstopped : ¬ Stopped s.point := by rw [hp]; exact id
  have hrun := h.jobs.running.resolve_left hstopped
  have hloop : (Connections.ledger s).holder .loop = some d := by
    simp [Connections.ledger, holder, pending, hp]
  have hnew : (Connections.ledger s).holder (.job s.handed.length) = none := by
    simp [Connections.ledger, holder]
  have hold : ∀ (t : ℕ) e, s.handed[t]? = some e → (s.handed ++ [d])[t]? = some e :=
    fun t e he => by
      rw [List.getElem?_append_left (List.getElem?_eq_some_iff.mp he).1]
      exact he
  refine ⟨?_, hslots, ?_, fun w => ?_, ⟨h.requests.once, ?_⟩, fun _ => ?_⟩
  · rw [ledger_submit h.jobs hp hworker htaken]
    exact h.ledger.pass hloop hnew
  · refine ⟨?_, Or.inr (hrunning.trans hrun), ?_, ?_, fun job t e hpr he => ?_, ?_⟩
    · obtain ⟨as, xs, hi⟩ := h.jobs.pool
      exact hi.step (a := .submit ⟨d.num, header⟩ (some addr) signalled) ⟨hrun, rfl⟩ hpool
    · rw [hsubmitted, List.map_append, List.map_append, h.jobs.handed]
      rfl
    · rw [List.map_append, List.nodup_append]
      refine ⟨h.jobs.once, List.nodup_singleton _, fun a ha b hb => ?_⟩
      rintro rfl
      exact not_handed h.ledger h.jobs hloop (List.mem_singleton.mp hb ▸ ha)
    · -- A processed job was taken, so its descriptor was handed over before.
      obtain ⟨as, xs, hi⟩ := h.jobs.pool
      rw [hprocessed] at hpr
      obtain ⟨w, hw⟩ := hi.past job t hpr
      have hlt := lt_of_lt_of_le (List.getElem?_eq_some_iff.mp hw).1 h.jobs.taken_le
      exact h.jobs.processed job t e hpr ((List.getElem?_append_left hlt).symm.trans he)
    · rintro (heq | heq) <;> cases heq
  · exact (h.working w).frame (hworker w) hold (fun _ _ _ => rfl) (fun _ _ => Iff.rfl)
      (fun _ _ => Iff.rfl)
      fun _ => Iff.rfl
  · intro c hc
    obtain ⟨t, e, hlt, he, htoken⟩ := h.requests.taken c hc
    exact ⟨t, e, by rw [htaken]; exact hlt, hold t e he, htoken⟩
  · exact h.listening (by rw [hp]; intro heq; cases heq)

theorem Inv.accept {ready : List ℕ} (h : Inv s) (hp : s.point = .accept ready)
    (hslots : Slots { s with
      point := .place ready ⟨s.table.lowest, s.accepted⟩
      table := s.table.alloc (.conn s.accepted)
      accepted := s.accepted + 1 }) :
    Inv { s with
      point := .place ready ⟨s.table.lowest, s.accepted⟩
      table := s.table.alloc (.conn s.accepted)
      accepted := s.accepted + 1 } := by
  have hstopped : ¬ Stopped s.point := by rw [hp]; exact id
  refine ⟨?_, hslots, ?_, fun w => ?_, ⟨h.requests.once, h.requests.taken⟩, fun _ => ?_⟩
  · rw [ledger_accept hp]
    refine h.ledger.issue ?_ ?_
    · simp [Connections.ledger, holder, pending, hp]
    · simp [Connections.ledger, connAt]
  · refine ⟨h.jobs.pool, Or.inr (h.jobs.running.resolve_left hstopped), h.jobs.handed,
      h.jobs.once, h.jobs.processed, ?_⟩
    rintro (heq | heq) <;> cases heq
  · exact (h.working w).frame (fun _ _ => Iff.rfl) (fun _ _ => id) (fun _ _ _ => rfl)
      (fun _ _ => Iff.rfl)
      (fun _ _ => Iff.rfl) (object_alloc (by intro heq; cases heq))
  · have hlisten := h.listening (by rw [hp]; intro heq; cases heq)
    exact (object_alloc (by intro heq; cases heq) listenFd).mpr hlisten

theorem Inv.drop {d : Handle} {p : Point} (h : Inv s) (hd : pending s.point = some d)
    (hnone : pending p = none) (hcurrent : current p = current s.point)
    (hslots : Slots { s.close d.num with point := p }) (hpoint : ¬ Stopped s.point)
    (hnext : ¬ Stopped p) : Inv { s.close d.num with point := p } := by
  refine h.closes (o := .loop) hd (by intro w hw; cases hw) (fun o ho => ?_) hslots hpoint hnext
  cases o with
  | worker w => exact absurd rfl (ho w)
  | loop => simp [holder, hnone]
  | slot i => simp [holder, hcurrent, State.close]
  | job t => exact (if_neg (by intro heq; cases heq)).symm

/-- What the loop reads from a socket moves nothing that the invariant speaks of. -/
theorem Inv.receive {ready : List ℕ} {i fd len : ℕ} {d : Handle} {t : Kernel.Transfer}
    {k : Reply (.sockRead fd len) → Prog (Option Header)} {q : Reply (.sockRead fd len) × State W}
    (h : Inv s) (hp : s.point = .read ready i d (.call (.sockRead fd len) k))
    (hq : s.receive fd len t = some q)
    (hslots : Slots { q.2 with point := .read ready i d (k q.1) }) :
    Inv { q.2 with point := .read ready i d (k q.1) } := by
  obtain ⟨sockets, hs⟩ := receive_state hq
  rw [hs] at hslots ⊢
  refine (h.environment s.running sockets s.connected).go ?_ ?_ hslots
    (by rw [hp]; exact False.elim) ?_ fun _ => ?_
  · change _ = current s.point
    rw [hp]
    rfl
  · change _ = pending s.point
    rw [hp]
    rfl
  · rintro (heq | heq) <;> cases heq
  · rw [hp]
    intro heq
    cases heq

/-- The shutdown wakes the workers that are asleep and takes no job from one. -/
theorem Inv.shutdown (h : Inv s) (hp : s.point = .shutdown)
    (hslots : Slots { s with pool := ThreadPool.threadpoolShutdown s.pool, point := .join }) :
    Inv { s with pool := ThreadPool.threadpoolShutdown s.pool, point := .join } := by
  obtain ⟨as, xs, hi⟩ := h.jobs.pool
  refine h.phases ⟨as, xs, hi.shutdown⟩ (fun w a t => ?_) (fun _ _ _ _ => rfl) rfl rfl rfl
    (by rw [hp]; rfl)
    (by rw [hp]; rfl) hslots (Or.inl trivial) (by rintro (heq | heq) <;> cases heq)
    (fun _ => by rw [hp]; intro heq; cases heq)
  change (if _ then _ else _) = _ ↔ _
  split
  · next hasleep =>
    rw [hasleep]
    exact iff_of_false (by intro heq; cases heq) (by intro heq; cases heq)
  · rfl

/-- The listening socket is no connection, so its close gives none back. -/
theorem Inv.stop (h : Inv s) (hp : s.point = .stop)
    (hslots : Slots { s.close listenFd with point := .done }) :
    Inv { s.close listenFd with point := .done } := by
  have hlisten := h.listening (by rw [hp]; intro heq; cases heq)
  have hconn : connAt s listenFd = none := by simp only [connAt, hlisten]
  have hclosed := closed_close_other hconn
  refine ⟨?_, hslots, ?_, fun w => ?_, ⟨h.requests.once, h.requests.taken⟩,
    fun hne => absurd rfl hne⟩
  · have hgo : Connections.ledger { s.close listenFd with point := .done } =
        Connections.ledger (s.close listenFd) := by
      refine ledger_go ?_ ?_
      · change _ = current s.point
        rw [hp]
        rfl
      · change _ = pending s.point
        rw [hp]
        rfl
    rw [hgo, ledger_close_other hconn]
    exact h.ledger
  · refine ⟨h.jobs.pool, Or.inl trivial, h.jobs.handed, h.jobs.once, ?_, fun _ =>
      h.jobs.joined (Or.inl hp)⟩
    intro job t d hpr hd
    change d.token ∈ (s.close listenFd).closed
    rw [hclosed]
    exact h.jobs.processed job t d hpr hd
  · refine (h.working w).frame (fun _ _ => Iff.rfl) (fun _ _ => id) (fun _ _ _ => rfl)
      (fun d _ => ?_)
      (fun _ _ => Iff.rfl) (object_close ?_)
    · change d.token ∈ (s.close listenFd).closed ↔ _
      rw [hclosed]
    · rw [hlisten]
      intro heq
      cases heq

theorem Inv.loop [Fintype W] [Nonempty W] {c : Choice W} (h : Inv s) (hstep : LoopStep s c s') :
    Inv s' := by
  have hslots := h.slots.step h.ledger hstep
  cases hstep with
  | go hg =>
    obtain ⟨hcurrent, hpending⟩ := goes_current hg
    exact h.go hcurrent hpending hslots (goes_stopped hg) (goes_joined hg)
      fun _ => goes_done hg
  | accept hp => exact h.accept hp hslots
  | @place ready d slot hp hslot =>
    refine h.moves ?_ hslots (by rw [hp]; exact id) id
    rw [ledger_place hp]
    refine h.ledger.pass ?_ ?_
    · simp [Connections.ledger, holder, pending, hp]
    · simp [Connections.ledger, holder, (freeSlot_some hslot).2]
  | reject hp =>
    exact h.drop (by rw [hp]; rfl) rfl (by rw [hp]; rfl) hslots (by rw [hp]; exact id) id
  | @pick ready i d hp hi hd hready =>
    refine h.moves ?_ hslots (by rw [hp]; exact id) id
    rw [ledger_pick hp]
    refine h.ledger.pass ?_ ?_
    · simp [Connections.ledger, holder, current, hp, hd]
    · simp [Connections.ledger, holder, pending, hp]
  | receive hp hq => exact h.receive hp hq hslots
  | submit hp hpool => exact h.submit hp hslots hpool
  | discard hp =>
    exact h.drop (by rw [hp]; rfl) rfl (by rw [hp]; rfl) hslots (by rw [hp]; exact id) id
  | @clear ready i hp =>
    refine h.moves ?_ hslots (by rw [hp]; exact id) id
    rw [ledger_clear hp]
    exact h.ledger
  | @sweep i d hp hd =>
    refine h.closes (o := .slot i) ?_ (by intro w hw; cases hw) (fun o ho => ?_) hslots
      (by rw [hp]; exact id) id
    · simp [Connections.ledger, holder, current, hp, hd]
    · cases o with
      | worker w => exact absurd rfl (ho w)
      | slot j => simp [holder, current, hp, Function.update_apply]
      | _ => simp [holder, pending, hp, State.close]
  | shutdown hp => exact h.shutdown hp hslots
  | stop hp => exact h.stop hp hslots

end Loop

section Workers
variable {W : Type} [DecidableEq W] {root : Bytes} {s s' : State W} {w : W}

theorem Inv.rests {p : Phase} {work : W → Prog Unit} (h : Inv s)
    (hpool : ∃ as xs,
      ThreadPool.Inv { s.pool with worker := Function.update s.pool.worker w p } as xs)
    (hold : ∀ a t, s.pool.worker w ≠ .busy a t) (hnew : ∀ a t, p ≠ .busy a t)
    (hexited : s.pool.worker w ≠ .exited)
    (hwork : ∀ v, v ≠ w → work v = s.work v) :
    Inv { s with
      pool := { s.pool with worker := Function.update s.pool.worker w p }
      work := work } := by
  refine h.phases (p := s.point) hpool (fun v a t => ?_) (fun v a t hv => ?_) rfl rfl rfl rfl rfl
    ⟨h.slots.bound, h.slots.apart, h.slots.inProcess, h.slots.swept, h.slots.reading⟩
    h.jobs.running ?_ id
  · by_cases hvw : v = w
    · subst hvw
      dsimp only
      rw [Function.update_self]
      exact iff_of_false (hnew a t) (hold a t)
    · dsimp only
      rw [Function.update_of_ne hvw]
  · refine hwork v ?_
    rintro rfl
    exact hold a t hv
  · exact fun hp => absurd (h.jobs.joined hp w) hexited

theorem Inv.take {pool : ThreadPool.State W} {addr : ℕ} {job : Job}
    {queue : LinkedQueue.Queue Job} (h : Inv s) (htest : s.pool.worker w = .testing)
    (hpool : pool = { s.pool with
      queue := queue
      worker := Function.update s.pool.worker w (.busy addr s.pool.taken.length)
      taken := s.pool.taken ++ [(w, job)] })
    (hinv : ∃ as xs, ThreadPool.Inv pool as xs) :
    Inv { s with pool := pool, work := Function.update s.work w (jobOf root pool w) } := by
  have hidle : ∀ a t, s.pool.worker w ≠ .busy a t := fun a t => by
    rw [htest]
    intro heq
    cases heq
  have hworker : pool.worker =
      Function.update s.pool.worker w (.busy addr s.pool.taken.length) := by
    rw [hpool]
  have hother : ∀ v, v ≠ w → pool.worker v = s.pool.worker v := fun v hv => by
    rw [hworker, Function.update_of_ne hv]
  have htaken : pool.taken = s.pool.taken ++ [(w, job)] := by rw [hpool]
  have hjobs : Jobs
      { s with pool := pool, work := Function.update s.work w (jobOf root pool w) } := by
    refine ⟨hinv, ?_, ?_, h.jobs.once, ?_, fun hp => ?_⟩
    · exact h.jobs.running.imp_right fun hrun => by rw [hpool]; exact hrun
    · rw [hpool]
      exact h.jobs.handed
    · rw [hpool]
      exact h.jobs.processed
    · have hexited := h.jobs.joined hp w
      rw [htest] at hexited
      cases hexited
  have hbusy : pool.worker w = .busy addr s.pool.taken.length := by
    rw [hworker, Function.update_self]
  obtain ⟨node, d, hnode, hd, hnum, -⟩ := hjobs.ticket hbusy
  have hqueued : (Connections.ledger s).holder (.job s.pool.taken.length) = some d := by
    simp only [Connections.ledger, holder, lt_irrefl, if_false]
    exact hd
  have hfresh : ∀ t e, t < s.pool.taken.length → s.handed[t]? = some e → e.token ≠ d.token :=
    fun t e hlt he heq => Nat.ne_of_lt hlt (h.jobs.token_inj he hd heq)
  refine ⟨?_, ⟨h.slots.bound, h.slots.apart, h.slots.inProcess, h.slots.swept, h.slots.reading⟩,
    hjobs,
    fun v => ?_, ⟨h.requests.once, fun c hc => ?_⟩, h.listening⟩
  · rw [ledger_take h.ledger hd hworker htaken]
    refine h.ledger.pass hqueued ?_
    cases hw : client s w with
    | none => simp [Connections.ledger, holder, hw]
    | some e =>
      obtain ⟨a, t, hw', -⟩ := busy_of_client hw
      exact absurd hw' (hidle a t)
  · by_cases hv : v = w
    · subst hv
      refine ⟨fun a t hb => ?_, fun hnone => absurd hbusy (hnone _ _)⟩
      obtain ⟨rfl, rfl⟩ := Phase.busy.inj (hbusy.symm.trans hb)
      refine ⟨d, ⟨true, false, none⟩, hd, ?_, ?_, ?_, fun n => ?_⟩
      · have hwork : Function.update s.work v (jobOf root pool v) v = processJob root node.val := by
          rw [Function.update_self]
          unfold jobOf
          rw [hbusy]
          dsimp only
          rw [show pool.queue.heap addr = some node from hnode]
        change Abides _ _ _ (Function.update s.work v (jobOf root pool v) v)
        rw [hwork, hnum]
        exact processJob_abides root node.val
      · exact iff_of_true rfl (h.ledger.fresh _ _ (h.ledger.live _ d hqueued)).2
      · refine iff_of_false Bool.false_ne_true fun hdis => ?_
        obtain ⟨t, e, hlt, he, htoken⟩ := h.requests.taken _ hdis
        exact hfresh t e hlt he htoken
      · exact iff_of_false ((h.working v).idle hidle n) (by intro heq; cases heq)
    · refine (h.working v).frame (fun a t => ?_) (fun _ _ => id) (fun a t _ => ?_)
        (fun _ _ => Iff.rfl) (fun _ _ => Iff.rfl) fun _ => Iff.rfl
      · change pool.worker v = _ ↔ _
        rw [hother v hv]
      · exact Function.update_of_ne hv ..
  · obtain ⟨t, e, hlt, he, htoken⟩ := h.requests.taken c hc
    refine ⟨t, e, ?_, he, htoken⟩
    change t < pool.taken.length
    rw [htaken, List.length_append]
    exact Nat.lt_of_lt_of_le hlt (Nat.le_add_right ..)

theorem Inv.finish {a t : ℕ} {job : Job} {queue : LinkedQueue.Queue Job} {u : Unit} (h : Inv s)
    (hw : s.pool.worker w = .busy a t) (hret : s.work w = .ret u)
    (hinv : ∃ as xs, ThreadPool.Inv { s.pool with
      queue := queue
      worker := Function.update s.pool.worker w .testing
      processed := s.pool.processed ++ [(job, t)] } as xs) :
    Inv { s with pool := { s.pool with
      queue := queue
      worker := Function.update s.pool.worker w .testing
      processed := s.pool.processed ++ [(job, t)] } } := by
  obtain ⟨d, held, hd, hworks⟩ := (h.working w).busy a t hw
  obtain ⟨hclient, hfile⟩ : Ended held u := by
    have habides := hworks.abides
    rw [hret] at habides
    exact habides
  have hclosed : d.token ∈ s.closed := by
    by_contra hopen
    rw [hworks.client.mpr hopen] at hclient
    cases hclient
  have hother : ∀ v, v ≠ w → Function.update s.pool.worker w .testing v = s.pool.worker v :=
    fun v hv => Function.update_of_ne hv ..
  refine ⟨?_, ⟨h.slots.bound, h.slots.apart, h.slots.inProcess, h.slots.swept, h.slots.reading⟩,
    ?_, fun v => ?_,
    ⟨h.requests.once, h.requests.taken⟩, h.listening⟩
  · refine (?_ : Connections.ledger _ = Connections.ledger s) ▸ h.ledger
    ext o e
    · cases o with
      | worker v =>
        change holder _ (.worker v) = some e ↔ holder s (.worker v) = some e
        rw [holder_worker, holder_worker]
        by_cases hv : v = w
        · subst hv
          rw [client_busy hw, hd]
          constructor
          · rintro ⟨hnew, -⟩
            obtain ⟨a', t', hb, -⟩ := busy_of_client hnew
            change Function.update s.pool.worker v .testing v = _ at hb
            rw [Function.update_self] at hb
            cases hb
          · rintro ⟨⟨⟩, hopen⟩
            exact absurd hclosed hopen
        · refine and_congr_left fun _ => client_iff (fun a' t' => ?_) fun _ _ _ => rfl
          change Function.update s.pool.worker w .testing v = _ ↔ _
          rw [hother v hv]
      | _ => rfl
    all_goals rfl
  · refine ⟨hinv, h.jobs.running, h.jobs.handed, h.jobs.once, fun job' t' e hp he => ?_,
      fun hp => ?_⟩
    · rcases List.mem_append.mp hp with hp | hp
      · exact h.jobs.processed job' t' e hp he
      · obtain ⟨-, rfl⟩ := Prod.mk.inj (List.mem_singleton.mp hp)
        obtain rfl := Option.some.inj (hd.symm.trans he)
        exact hclosed
    · have hexited := h.jobs.joined hp w
      rw [hw] at hexited
      cases hexited
  · by_cases hv : v = w
    · subst hv
      refine ⟨fun a' t' hb => ?_, fun _ n hn => ?_⟩
      · change Function.update s.pool.worker v .testing v = _ at hb
        rw [Function.update_self] at hb
        cases hb
      · have hnone := (hworks.file n).mp hn
        rw [hfile] at hnone
        cases hnone
    · refine (h.working v).frame (fun a' t' => ?_) (fun _ _ => id) (fun _ _ _ => rfl)
        (fun _ _ => Iff.rfl) (fun _ _ => Iff.rfl) fun _ => Iff.rfl
      change Function.update s.pool.worker w .testing v = _ ↔ _
      rw [hother v hv]

omit [DecidableEq W] in
/-- What a call of a worker does to the process and to what the worker holds. -/
theorem perform_cases {fd ticket : ℕ} {held : Held} {t : Kernel.Transfer}
    {reply : (e : Call) → Reply e} {e : Call} {q : Reply e × State W}
    (hadmits : (descriptors fd).admits held e) (hq : s.perform w ticket t reply e = some q) :
    ((descriptors fd).next held e q.1 = held ∧ ∃ sockets, q.2 = { s with sockets := sockets }) ∨
    (held.client = true ∧ (descriptors fd).next held e q.1 = { held with client := false } ∧
      q.2 = s.close fd) ∨
    (∃ n, held.file = some n ∧ (descriptors fd).next held e q.1 = { held with file := none } ∧
      q.2 = s.close n) ∨
    (held.file = none ∧ q.2 = s.openFile w ∧
      (descriptors fd).next held e q.1 = { held with file := some s.table.lowest }) ∨
    (held.dispatched = false ∧
      (descriptors fd).next held e q.1 = { held with dispatched := true } ∧
      q.2 = { s with
        dispatched := s.dispatched ++ (s.handed[ticket]?.map Handle.token).toList }) := by
  cases e with
  | sockRead fd' len =>
    exact Or.inl ⟨rfl, receive_state hq⟩
  | sockClose fd' =>
    obtain ⟨hclient, rfl⟩ := hadmits
    cases hq
    exact Or.inr (Or.inl ⟨hclient, rfl, rfl⟩)
  | close file =>
    cases hq
    exact Or.inr (Or.inr (Or.inl ⟨_, hadmits, rfl, rfl⟩))
  | closedir dir =>
    cases hq
    exact Or.inr (Or.inr (Or.inl ⟨_, hadmits, rfl, rfl⟩))
  | openWrite path =>
    simp only [State.perform] at hq
    split at hq
    · cases hq
      exact Or.inl ⟨rfl, s.sockets, rfl⟩
    · cases hq
      exact Or.inr (Or.inr (Or.inr (Or.inl ⟨hadmits, rfl, rfl⟩)))
  | openRead path =>
    simp only [State.perform] at hq
    split at hq
    · cases hq
      exact Or.inl ⟨rfl, s.sockets, rfl⟩
    · cases hq
      exact Or.inr (Or.inr (Or.inr (Or.inl ⟨hadmits, rfl, rfl⟩)))
  | opendir =>
    simp only [State.perform] at hq
    split at hq
    · cases hq
      exact Or.inl ⟨rfl, s.sockets, rfl⟩
    · cases hq
      exact Or.inr (Or.inr (Or.inr (Or.inl ⟨hadmits, rfl, rfl⟩)))
  | dispatch opcode =>
    cases hq
    exact Or.inr (Or.inr (Or.inr (Or.inr ⟨hadmits, rfl, rfl⟩)))
  | _ =>
    cases hq
    exact Or.inl ⟨rfl, s.sockets, rfl⟩

/-- What a worker does leaves the loop, the slots and the queue alone. -/
structure Aside (s s' : State W) : Prop where
  point : s'.point = s.point
  clientFds : s'.clientFds = s.clientFds
  pool : s'.pool = s.pool
  handed : s'.handed = s.handed
  accepted : s'.accepted = s.accepted

omit [DecidableEq W] in
theorem Aside.holder {o : Owner W} (h : Aside s s') (ho : ∀ v, o ≠ .worker v) :
    holder s' o = holder s o := by
  cases o with
  | worker v => exact absurd rfl (ho v)
  | _ => simp only [Connections.holder, h.point, h.clientFds, h.pool, h.handed]

omit [DecidableEq W] in
theorem Aside.client (h : Aside s s') (v : W) : client s' v = client s v := by
  simp only [Connections.client, h.pool, h.handed]

omit [DecidableEq W] in
theorem Aside.ledger (h : Aside s s') (hclosed : s'.closed = s.closed)
    (hconn : ∀ n, connAt s' n = connAt s n) : ledger s' = ledger s := by
  ext o d
  · cases o with
    | worker v =>
      change Connections.holder s' (.worker v) = some d ↔ Connections.holder s (.worker v) = some d
      rw [holder_worker, holder_worker, h.client, hclosed]
    | _ =>
      simp only [Connections.ledger]
      rw [h.holder (by intro v hv; cases hv)]
  · change connAt s' _ = some _ ↔ connAt s _ = some _
    rw [hconn]
  · exact h.accepted
  · simp only [Connections.ledger, hclosed]

theorem Inv.aside (h : Inv s) (haside : Aside s s')
    (hledger : Ledger.Inv (Connections.ledger s')) (hclosed : ∀ c ∈ s.closed, c ∈ s'.closed)
    (hworking : ∀ v, Working s' v) (hrequests : Requests s')
    (hlisten : s.table.get listenFd = some .listener → s'.table.get listenFd = some .listener) :
    Inv s' where
  ledger := hledger
  slots :=
    { bound := by rw [haside.clientFds]; exact h.slots.bound
      apart := by rw [haside.clientFds]; exact h.slots.apart
      inProcess := by rw [haside.clientFds, haside.point]; exact h.slots.inProcess
      swept := by rw [haside.clientFds, haside.point]; exact h.slots.swept
      reading := by rw [haside.point]; exact h.slots.reading }
  jobs :=
    { pool := by rw [haside.pool]; exact h.jobs.pool
      running := by rw [haside.pool, haside.point]; exact h.jobs.running
      handed := by rw [haside.pool, haside.handed]; exact h.jobs.handed
      once := by rw [haside.handed]; exact h.jobs.once
      processed := by
        rw [haside.pool, haside.handed]
        exact fun job t d hp hd => hclosed _ (h.jobs.processed job t d hp hd)
      joined := by rw [haside.pool, haside.point]; exact h.jobs.joined }
  working := hworking
  requests := hrequests
  listening hp := hlisten (h.listening (haside.point ▸ hp))

omit [DecidableEq W] in
theorem Requests.aside (h : Requests s) (haside : Aside s s')
    (hdispatched : s'.dispatched = s.dispatched) : Requests s' := by
  refine ⟨hdispatched ▸ h.once, ?_⟩
  rw [hdispatched, haside.pool, haside.handed]
  exact h.taken

section Call
variable {a ticket : ℕ} {d : Handle} {held held' : Held} {p : Prog Unit}

/-- The workers after a call of one of them, given what becomes of its own job. -/
theorem Inv.working_after (h : Inv s) (hbusy : s.pool.worker w = .busy a ticket)
    (hd : s.handed[ticket]? = some d) (haside : Aside s s')
    (hwork : s'.work = Function.update s.work w p)
    (habides : Abides (descriptors d.num) Ended held' p)
    (hclient : held'.client = true ↔ d.token ∉ s'.closed)
    (hrequest : held'.dispatched = true ↔ d.token ∈ s'.dispatched)
    (hown : ∀ n, s'.table.get n = some (.file w) ↔ held'.file = some n)
    (hclosed : ∀ c, c ≠ d.token → (c ∈ s'.closed ↔ c ∈ s.closed))
    (hdispatched : ∀ c, c ≠ d.token → (c ∈ s'.dispatched ↔ c ∈ s.dispatched))
    (hfiles : ∀ v, v ≠ w → ∀ n, s'.table.get n = some (.file v) ↔ s.table.get n = some (.file v))
    (v : W) : Working s' v := by
  by_cases hv : v = w
  · subst hv
    refine ⟨fun a' t' hb => ?_, fun hidle => absurd (haside.pool ▸ hbusy) (hidle a ticket)⟩
    rw [haside.pool, hbusy] at hb
    obtain ⟨rfl, rfl⟩ := Phase.busy.inj hb
    refine ⟨d, held', haside.handed ▸ hd, ?_, hclient, hrequest, hown⟩
    rw [hwork, Function.update_self]
    exact habides
  · -- Its job is for another connection.
    have hne : ∀ e, client s v = some e → e.token ≠ d.token := fun e he =>
      h.jobs.client_ne hv he ((client_busy hbusy).trans hd)
    refine (h.working v).frame (fun a' t' => by rw [haside.pool])
      (fun t' e he => by rw [haside.handed]; exact he) (fun _ _ _ => ?_)
      (fun e he => hclosed _ (hne e he)) (fun e he => hdispatched _ (hne e he)) (hfiles v hv)
    rw [hwork, Function.update_of_ne hv]

theorem Inv.keeps (h : Inv s) (hbusy : s.pool.worker w = .busy a ticket)
    (hd : s.handed[ticket]? = some d) (hworks : Works s w d held)
    (habides : Abides (descriptors d.num) Ended held p) (sockets : ℕ → Socket) :
    Inv { s with sockets := sockets, work := Function.update s.work w p } := by
  have haside : Aside s { s with sockets := sockets, work := Function.update s.work w p } :=
    ⟨rfl, rfl, rfl, rfl, rfl⟩
  refine h.aside haside (haside.ledger rfl (fun _ => rfl) ▸ h.ledger) (fun _ => id) ?_
    (h.requests.aside haside rfl) id
  exact h.working_after hbusy hd haside rfl habides hworks.client hworks.dispatched hworks.file
    (fun _ _ => Iff.rfl) (fun _ _ => Iff.rfl) fun _ _ _ => Iff.rfl

theorem Inv.closes_client (h : Inv s) (hbusy : s.pool.worker w = .busy a ticket)
    (hd : s.handed[ticket]? = some d) (hworks : Works s w d held) (hopen : held.client = true)
    (habides : Abides (descriptors d.num) Ended { held with client := false } p) :
    Inv { s.close d.num with work := Function.update s.work w p } := by
  have hheldBy : (Connections.ledger s).holder (.worker w) = some d :=
    holder_worker.mpr ⟨(client_busy hbusy).trans hd, hworks.client.mp hopen⟩
  have hconn : connAt s d.num = some d.token := h.ledger.live _ d hheldBy
  have hget := connAt_eq_some.mp hconn
  have hclosed := closed_close_conn hconn
  have haside : Aside s { s.close d.num with work := Function.update s.work w p } :=
    ⟨rfl, rfl, rfl, rfl, rfl⟩
  have hfiles : ∀ v, s.table.get d.num ≠ some (.file v) := fun v => by
    rw [hget]
    intro heq
    cases heq
  refine h.aside haside ?_ (fun c hc => ?_) ?_ (h.requests.aside haside rfl) fun hlisten => ?_
  · rw [ledger_close { s.close d.num with work := Function.update s.work w p } (o := .worker w)
      h.ledger hheldBy rfl rfl rfl rfl rfl fun o ho => by rw [if_neg (ho w), haside.holder ho]]
    exact h.ledger.close hheldBy
  · exact hclosed ▸ List.mem_append_left _ hc
  · refine h.working_after hbusy hd haside rfl habides ?_ hworks.dispatched
      (fun n => (object_close (hfiles w) n).trans (hworks.file n)) (fun c hc => ?_)
      (fun _ _ => Iff.rfl) fun v _ => object_close (hfiles v)
    · refine iff_of_false Bool.false_ne_true (not_not.mpr ?_)
      exact hclosed ▸ List.mem_append_right _ (List.mem_singleton.mpr rfl)
    · change c ∈ (s.close d.num).closed ↔ _
      rw [hclosed, List.mem_append, List.mem_singleton]
      exact or_iff_left hc
  · refine (object_close ?_ listenFd).mpr hlisten
    rw [hget]
    intro heq
    cases heq

theorem Inv.closes_file {n : ℕ} (h : Inv s) (hbusy : s.pool.worker w = .busy a ticket)
    (hd : s.handed[ticket]? = some d) (hworks : Works s w d held) (hfile : held.file = some n)
    (habides : Abides (descriptors d.num) Ended { held with file := none } p) :
    Inv { s.close n with work := Function.update s.work w p } := by
  have hget : s.table.get n = some (.file w) := (hworks.file n).mpr hfile
  have hconn : connAt s n = none := by simp only [connAt, hget]
  have hclosed := closed_close_other hconn
  have haside : Aside s { s.close n with work := Function.update s.work w p } :=
    ⟨rfl, rfl, rfl, rfl, rfl⟩
  refine h.aside haside ?_ (fun c hc => hclosed ▸ hc) ?_ (h.requests.aside haside rfl)
    fun hlisten => ?_
  · rw [haside.ledger hclosed fun m => ?_]
    · exact h.ledger
    · change connAt (s.close n) m = _
      rw [connAt_close]
      split
      · next hm => rw [hm, hconn]
      · rfl
  · refine h.working_after hbusy hd haside rfl habides ?_ hworks.dispatched (fun m => ?_)
      (fun c _ => ?_) (fun _ _ => Iff.rfl) fun v hv => object_close ?_
    · change _ ↔ d.token ∉ (s.close n).closed
      rw [hclosed]
      exact hworks.client
    · -- It was the only file that the worker had open.
      change (s.table.release n).get m = _ ↔ _
      rw [Table.get_release]
      refine iff_of_false (fun hm => ?_) (by intro heq; cases heq)
      split at hm
      · cases hm
      · next hne =>
        have hfile' := (hworks.file m).mp hm
        rw [hfile] at hfile'
        exact hne (Option.some.inj hfile').symm
    · change c ∈ (s.close n).closed ↔ _
      rw [hclosed]
    · rw [hget]
      exact fun heq => hv (Object.file.inj (Option.some.inj heq)).symm
  · refine (object_close ?_ listenFd).mpr hlisten
    rw [hget]
    intro heq
    cases heq

theorem Inv.opens_file (h : Inv s) (hbusy : s.pool.worker w = .busy a ticket)
    (hd : s.handed[ticket]? = some d) (hworks : Works s w d held) (hfile : held.file = none)
    (habides : Abides (descriptors d.num) Ended { held with file := some s.table.lowest } p) :
    Inv { s.openFile w with work := Function.update s.work w p } := by
  have haside : Aside s { s.openFile w with work := Function.update s.work w p } :=
    ⟨rfl, rfl, rfl, rfl, rfl⟩
  refine h.aside haside ?_ (fun _ => id) ?_ (h.requests.aside haside rfl) fun hlisten => ?_
  · rw [haside.ledger rfl fun m => ?_]
    · exact h.ledger
    · simp only [connAt, State.openFile, Table.get_alloc]
      by_cases hm : m = s.table.lowest
      · rw [if_pos hm, hm, Table.get_lowest]
      · rw [if_neg hm]
  · refine h.working_after hbusy hd haside rfl habides hworks.client hworks.dispatched (fun m => ?_)
      (fun _ _ => Iff.rfl) (fun _ _ => Iff.rfl)
      fun v hv => object_alloc fun heq => hv (Object.file.inj heq).symm
    change (s.table.alloc _).get m = _ ↔ _
    rw [Table.get_alloc]
    split
    · next hm => exact iff_of_true rfl (congrArg some hm.symm)
    · next hm =>
      rw [hworks.file m, hfile]
      exact iff_of_false (by intro hnone; cases hnone) fun heq => hm (Option.some.inj heq).symm
  · exact (object_alloc (by intro heq; cases heq) listenFd).mpr hlisten

theorem Inv.dispatches (h : Inv s) (hbusy : s.pool.worker w = .busy a ticket)
    (hd : s.handed[ticket]? = some d) (hworks : Works s w d held) (hfirst : held.dispatched = false)
    (habides : Abides (descriptors d.num) Ended { held with dispatched := true } p) :
    Inv { s with
      dispatched := s.dispatched ++ [d.token]
      work := Function.update s.work w p } := by
  have hnew : d.token ∉ s.dispatched := fun hm => by
    rw [hworks.dispatched.mpr hm] at hfirst
    cases hfirst
  have haside : Aside s { s with
      dispatched := s.dispatched ++ [d.token]
      work := Function.update s.work w p } := ⟨rfl, rfl, rfl, rfl, rfl⟩
  refine h.aside haside (haside.ledger rfl (fun _ => rfl) ▸ h.ledger) (fun _ => id) ?_
    ⟨?_, fun c hc => ?_⟩ id
  · refine h.working_after hbusy hd haside rfl habides hworks.client ?_ hworks.file
      (fun _ _ => Iff.rfl) (fun c hc => ?_) fun _ _ _ => Iff.rfl
    · exact iff_of_true rfl (List.mem_append_right _ (List.mem_singleton.mpr rfl))
    · change c ∈ s.dispatched ++ [d.token] ↔ _
      rw [List.mem_append, List.mem_singleton]
      exact or_iff_left hc
  · refine List.nodup_append.mpr ⟨h.requests.once, List.nodup_singleton _, fun c hc c' hc' => ?_⟩
    intro heq
    subst heq
    exact hnew (List.mem_singleton.mp hc' ▸ hc)
  · rcases List.mem_append.mp hc with hc | hc
    · exact h.requests.taken c hc
    · exact ⟨ticket, d, h.jobs.busy_lt hbusy, hd, (List.mem_singleton.mp hc).symm⟩

/-- A worker makes the next call of its job. -/
theorem Inv.call {t : Kernel.Transfer} {reply : (e : Call) → Reply e} {e : Call}
    {k : Reply e → Prog Unit} {q : Reply e × State W} (h : Inv s)
    (hbusy : s.pool.worker w = .busy a ticket) (hwork : s.work w = .call e k)
    (hq : s.perform w ticket t reply e = some q) :
    Inv { q.2 with work := Function.update q.2.work w (k q.1) } := by
  obtain ⟨d, held, hd, hworks⟩ := (h.working w).busy a ticket hbusy
  obtain ⟨hadmits, hnext⟩ : (descriptors d.num).admits held e ∧
      ∀ r, (descriptors d.num).replies e r →
        Abides (descriptors d.num) Ended ((descriptors d.num).next held e r) (k r) := by
    have habides := hworks.abides
    rw [hwork] at habides
    exact habides
  have habides := hnext q.1 trivial
  rcases perform_cases hadmits hq with ⟨hheld, sockets, hs⟩ | ⟨hopen, hheld, hs⟩ |
    ⟨n, hfile, hheld, hs⟩ | ⟨hfile, hs, hheld⟩ | ⟨hfirst, hheld, hs⟩
  all_goals rw [hs]; rw [hheld] at habides
  · exact h.keeps hbusy hd hworks habides sockets
  · exact h.closes_client hbusy hd hworks hopen habides
  · exact h.closes_file hbusy hd hworks hfile habides
  · exact h.opens_file hbusy hd hworks hfile habides
  · rw [hd]
    exact h.dispatches hbusy hd hworks hfirst habides

end Call

end Workers

end NervFS.Handover
