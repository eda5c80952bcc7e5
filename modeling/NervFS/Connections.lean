import NervFS.JobDescriptors
import NervFS.SelectLoop

/-!
Who owns a connection. Slots, the iteration of the accept loop, queued jobs and workers
hand the accepted descriptors on, and each close is that of an owner. So the system runs
a ledger of connections, although the kernel reuses the numbers.
-/
namespace NervFS.Connections

open Programs Transitions DescriptorTable Calls Protocol SelectLoop JobDescriptors
open Ledger (Handle)
open ThreadPool (Job Phase processJob)

inductive Owner (W : Type)
  | slot (i : ℕ)
  | loop
  | job (ticket : ℕ)
  | worker (w : W)
  deriving DecidableEq

/-- The slot whose descriptor `handle_client_readable` has in process, up to the
assignment of -1 to it. -/
def current : Point → Option ℕ
  | .read _ i _ _ | .submit _ i _ _ | .discard _ i _ | .clear _ i => some i
  | _ => none

/-- The descriptor that the iteration of the loop has to place, hand over or close. -/
def pending : Point → Option Handle
  | .place _ d | .reject _ d | .read _ _ d _ | .submit _ _ d _ | .discard _ _ d => some d
  | _ => none

section Ledgers
variable {W : Type}

/-- The client of the job that a worker has in process. -/
def client (s : State W) (w : W) : Option Handle :=
  match s.pool.worker w with
  | .busy _ t => s.handed[t]?
  | _ => none

/-- What an owner holds. A slot in process does not count, nor a job that was taken, nor
the client of a worker that has closed it. -/
def holder (s : State W) : Owner W → Option Handle
  | .slot i => if current s.point = some i then none else s.clientFds i
  | .loop => pending s.point
  | .job t => if t < s.pool.taken.length then none else s.handed[t]?
  | .worker w => (client s w).filter fun d => d.token ∉ s.closed

/-- The connection that a number refers to. -/
def connAt (s : State W) (n : ℕ) : Option ℕ :=
  match s.table.get n with
  | some (.conn c) => some c
  | _ => none

def ledger (s : State W) : Ledger.State (Owner W) where
  holder := holder s
  open_ := connAt s
  issued := s.accepted
  closed := s.closed

variable {s s' : State W} {d : Handle} {n c : ℕ}

theorem holder_worker {w : W} :
    holder s (.worker w) = some d ↔ client s w = some d ∧ d.token ∉ s.closed := by
  simp only [holder, Option.filter_eq_some_iff, decide_eq_true_eq]

theorem connAt_eq_some : connAt s n = some c ↔ s.table.get n = some (.conn c) := by
  unfold connAt
  split
  · next c' h =>
    rw [h]
    constructor <;> rintro ⟨⟩ <;> rfl
  · next h =>
    constructor
    · exact nofun
    · exact fun hc => absurd hc (h c)

theorem connAt_close (m : ℕ) : connAt (s.close n) m = if m = n then none else connAt s m := by
  unfold connAt State.close
  simp only [Table.get_release]
  by_cases h : m = n
  · rw [if_pos h, if_pos h]
  · rw [if_neg h, if_neg h]

theorem closed_close_conn (h : connAt s n = some c) : (s.close n).closed = s.closed ++ [c] := by
  unfold State.close
  rw [connAt_eq_some.mp h]

theorem closed_close_other (h : connAt s n = none) : (s.close n).closed = s.closed := by
  unfold State.close
  dsimp only
  split
  · next c hc =>
    rw [connAt_eq_some.mpr hc] at h
    cases h
  · rfl

/-- A step within the loop thread, between two points with the same descriptor in
process. -/
theorem ledger_go {p : Point} (hc : current p = current s.point)
    (hh : pending p = pending s.point) : ledger { s with point := p } = ledger s := by
  ext o d
  · cases o with
    | slot i => simp only [ledger, holder, hc]
    | loop => simp only [ledger, holder, hh]
    | _ => rfl
  all_goals rfl

theorem goes_current {p q : Point} (h : Goes s p q) :
    current q = current p ∧ pending q = pending p := by
  cases h <;> exact ⟨rfl, rfl⟩

variable [DecidableEq W]

omit [DecidableEq W] in
/-- The owners are not touched where a number that is no connection is closed. -/
theorem ledger_close_other (h : connAt s n = none) : ledger (s.close n) = ledger s := by
  have hclosed := closed_close_other h
  ext o d
  · cases o with
    | worker w =>
      change holder (s.close n) (.worker w) = some d ↔ holder s (.worker w) = some d
      rw [holder_worker, holder_worker, hclosed]
      rfl
    | _ => rfl
  · simp only [ledger, connAt_close]
    split
    · next hm => rw [hm, h]
    · rfl
  · rfl
  · simp only [ledger, hclosed]

theorem ledger_close (s' : State W) {o : Owner W} (hi : Ledger.Inv (ledger s))
    (ho : holder s o = some d)
    (hpool : s'.pool = s.pool) (hhanded : s'.handed = s.handed)
    (htable : s'.table = (s.close d.num).table) (hclosed : s'.closed = (s.close d.num).closed)
    (haccepted : s'.accepted = s.accepted)
    (hholder : ∀ o', (∀ w, o' ≠ .worker w) → holder s' o' = if o' = o then none else holder s o') :
    ledger s' = (ledger s).close o d := by
  have hclosed' : s'.closed = s.closed ++ [d.token] :=
    hclosed.trans (closed_close_conn (hi.live o d ho))
  ext o' d'
  · change holder s' o' = some d' ↔ Function.update (holder s) o none o' = some d'
    rw [update_eq_iff]
    cases o' with
    | worker w =>
      have hclient : client s' w = client s w := by simp only [client, hpool, hhanded]
      rw [holder_worker, holder_worker, hclient, hclosed', List.mem_append, List.mem_singleton]
      constructor
      · rintro ⟨hd', hnot⟩
        obtain ⟨hopen, hne⟩ := not_or.mp hnot
        have hhold := holder_worker.mpr ⟨hd', hopen⟩
        refine Or.inr ⟨?_, hd', hopen⟩
        rintro rfl
        rw [hhold] at ho
        exact hne (congrArg Handle.token (Option.some.inj ho))
      · rintro (⟨-, hd'⟩ | ⟨hne, hd', hopen⟩)
        · cases hd'
        · have hhold := holder_worker.mpr ⟨hd', hopen⟩
          exact ⟨hd', not_or.mpr ⟨hopen, fun heq => hne (hi.exclusive _ _ _ _ hhold ho heq)⟩⟩
    | _ =>
      rw [hholder _ (by exact nofun), ite_eq_iff]
  · change _ ∈ connAt s' _ ↔ _ ∈ Function.update (connAt s) d.num none _
    have hconn : ∀ m, connAt s' m = connAt (s.close d.num) m := fun m => by
      simp only [connAt, htable]
    rw [hconn, connAt_close, Function.update_apply]
  · simp only [ledger, haccepted, Ledger.State.close]
  · simp only [ledger, hclosed', Ledger.State.close]

theorem ledger_accept {ready : List ℕ} (hp : s.point = .accept ready) :
    ledger { s with
      point := .place ready ⟨s.table.lowest, s.accepted⟩
      table := s.table.alloc (.conn s.accepted)
      accepted := s.accepted + 1 } = (ledger s).issue .loop s.table.lowest := by
  ext o d
  · change _ ↔ Function.update (holder s) .loop _ o = some d
    rw [update_eq_iff]
    cases o with
    | slot i => simp [ledger, holder, current, hp]
    | loop => simp [ledger, holder, pending]
    | _ => simp [ledger, holder, client]
  · change connAt _ _ = some _ ↔ Function.update (connAt s) _ _ _ = some _
    rw [update_eq_iff, connAt_eq_some, connAt_eq_some, Table.get_alloc, ite_eq_iff,
      Option.some_inj, Object.conn.injEq, Option.some_inj]
    rfl
  all_goals rfl

theorem ledger_place {ready : List ℕ} {slot : ℕ} (hp : s.point = .place ready d) :
    ledger { s with
      point := .scan ready 0
      clientFds := Function.update s.clientFds slot (some d) } =
        (ledger s).pass .loop (.slot slot) d := by
  ext o e
  · change _ ↔ Function.update (Function.update (holder s) .loop none) (.slot slot) _ o = some e
    rw [update_eq_iff, update_eq_iff]
    cases o with
    | slot i => simp [ledger, holder, current, hp, update_eq_iff]
    | loop => simp [ledger, holder, pending]
    | _ => simp [ledger, holder, client]
  all_goals rfl

theorem ledger_pick {ready : List ℕ} {i : ℕ} {p : Prog (Option Header)}
    (hp : s.point = .scan ready i) :
    ledger { s with point := .read ready i d p } = (ledger s).pass (.slot i) .loop d := by
  ext o e
  · change _ ↔ Function.update (Function.update (holder s) (.slot i) none) .loop _ o = some e
    rw [update_eq_iff, update_eq_iff]
    cases o with
    | slot j =>
      by_cases hij : i = j
      · simp [ledger, holder, current, hij]
      · simp [ledger, holder, current, hp, hij, Ne.symm hij]
    | loop => simp [ledger, holder, pending]
    | _ => simp [ledger, holder, client]
  all_goals rfl

omit [DecidableEq W] in
theorem ledger_clear {ready : List ℕ} {i : ℕ} (hp : s.point = .clear ready i) :
    ledger { s with
      point := .scan ready (i + 1)
      clientFds := Function.update s.clientFds i none } = ledger s := by
  ext o e
  · change holder _ o = some e ↔ holder s o = some e
    cases o with
    | slot j =>
      by_cases hij : j = i
      · simp [holder, current, hp, hij]
      · simp [holder, current, hp, Ne.symm hij, Function.update_of_ne hij]
    | loop => simp [holder, pending, hp]
    | _ => rfl
  all_goals rfl

end Ledgers

/-- The slots that the final sweep has closed. -/
def Swept : Point → ℕ → Prop
  | .sweep i, j => j < i
  | .shutdown, _ | .join, _ | .stop, _ | .done, _ => True
  | _, _ => False

structure Slots {W : Type} (s : State W) : Prop where
  bound : ∀ i d, s.clientFds i = some d → i < nervfsMaxClients
  apart : ∀ i j d d', s.clientFds i = some d → s.clientFds j = some d' → d.num = d'.num → i = j
  inProcess : ∀ i d, current s.point = some i → pending s.point = some d → s.clientFds i = some d
  swept : ∀ i, Swept s.point i → s.clientFds i = none
  reading : ∀ ready i d p, s.point = .read ready i d p →
    p.All fun e => ∃ len, e = .sockRead d.num len

theorem handleClientReadable_all (clientFd : ℕ) :
    (handleClientReadable clientFd).All fun e => ∃ len, e = .sockRead clientFd len := by
  have hloop : ∀ rounds got,
      (recvLoop clientFd nervfsHeaderSize rounds got).All
        fun e => ∃ len, e = .sockRead clientFd len := by
    intro rounds
    induction rounds with
    | zero => exact fun _ => trivial
    | succ rounds ih =>
      intro got
      unfold recvLoop
      split
      · trivial
      · refine ⟨⟨_, rfl⟩, fun r => ?_⟩
        cases r with
        | none => trivial
        | some chunk =>
          change Program.All _ (if chunk.val = [] then _ else _)
          split
          · trivial
          · exact ih _
  unfold handleClientReadable
  refine (hloop _ []).bind fun r => ?_
  cases r with
  | none => trivial
  | some got =>
    dsimp only
    split <;> trivial

section Steps
variable {W : Type} {s s' : State W}

theorem receive_state {fd len : ℕ} {t : Kernel.Transfer} {q}
    (h : s.receive fd len t = some q) : ∃ sockets, q.2 = { s with sockets := sockets } := by
  unfold State.receive at h
  split at h
  · cases h
    exact ⟨s.sockets, rfl⟩
  · split at h
    · split at h
      · cases h
        exact ⟨s.sockets, rfl⟩
      · cases h
    · cases h
      exact ⟨_, rfl⟩
  · cases h
    exact ⟨s.sockets, rfl⟩

theorem freeSlot_some {slot : ℕ} (h : s.freeSlot = some slot) :
    slot < nervfsMaxClients ∧ s.clientFds slot = none := by
  unfold State.freeSlot at h
  have hmem : slot ∈ List.range nervfsMaxClients := List.mem_of_find?_eq_some h
  have hfree := List.find?_some h
  exact ⟨List.mem_range.mp hmem, Option.isNone_iff_eq_none.mp hfree⟩

theorem of_cleared {i j : ℕ} {d : Handle}
    (hj : Function.update s.clientFds i none j = some d) : s.clientFds j = some d := by
  rcases update_eq_iff.mp hj with ⟨-, hj⟩ | ⟨-, hj⟩
  · cases hj
  · exact hj

variable [DecidableEq W] [Fintype W] {c : Choice W}

theorem Slots.step (h : Slots s) (hi : Ledger.Inv (ledger s)) (hstep : LoopStep s c s') :
    Slots s' := by
  cases hstep with
  | @go p hg =>
    obtain ⟨hcurrent, hpending⟩ := goes_current hg
    refine ⟨h.bound, h.apart, fun i d hc hh => h.inProcess i d ?_ ?_, fun j hj => ?_, ?_⟩
    · exact hcurrent.symm.trans hc
    · exact hpending.symm.trans hh
    · change s.clientFds j = none
      have hold := h.swept j
      generalize s.point = q at hg hold
      cases hg with
      | leave => exact absurd hj (Nat.not_lt_zero j)
      | empty hnone =>
        rcases Nat.lt_succ_iff_lt_or_eq.mp hj with hlt | rfl
        · exact hold hlt
        · exact hnone
      | swept hmax =>
        cases hd : s.clientFds j with
        | none => rfl
        | some d => exact absurd (hold (lt_of_lt_of_le (h.bound j d hd) hmax)) (by simp [hd])
      | joined => exact hold trivial
      | _ => exact hj.elim
    · intro ready i d q hq
      obtain rfl : p = _ := hq
      generalize s.point = o at hg
      cases hg
  | accept hp => exact ⟨h.bound, h.apart, nofun, nofun, nofun⟩
  | @place ready d slot hp hslot =>
    obtain ⟨hlt, hfree⟩ := freeSlot_some hslot
    -- The new number differs from that of every slot, as each has another owner.
    have hnew : ∀ j e, s.clientFds j = some e → e.num ≠ d.num := fun j e he heq => by
      have hloop : (ledger s).holder .loop = some d := by simp [ledger, holder, pending, hp]
      have hheld : (ledger s).holder (.slot j) = some e := by
        simp [ledger, holder, current, hp, he]
      cases hi.num_exclusive hheld hloop heq
    refine ⟨fun j e hj => ?_, fun j k e e' hj hk heq => ?_, nofun, nofun, nofun⟩
    · rcases update_eq_iff.mp hj with ⟨rfl, -⟩ | ⟨-, hj⟩
      · exact hlt
      · exact h.bound j e hj
    · rcases update_eq_iff.mp hj with ⟨rfl, he⟩ | ⟨-, he⟩ <;>
        rcases update_eq_iff.mp hk with ⟨rfl, he'⟩ | ⟨-, he'⟩
      · rfl
      · cases he
        exact absurd heq.symm (hnew k e' he')
      · cases he'
        exact absurd heq (hnew j e he)
      · exact h.apart j k e e' he he' heq
  | reject hp => exact ⟨h.bound, h.apart, nofun, nofun, nofun⟩
  | pick hp hlt hd hready =>
    refine ⟨h.bound, h.apart, ?_, nofun, ?_⟩
    · rintro i d ⟨⟩ ⟨⟩
      exact hd
    · rintro ready i d p ⟨⟩
      exact handleClientReadable_all _
  | receive hp hq =>
    obtain ⟨sockets, hs⟩ := receive_state hq
    rw [hs]
    refine ⟨h.bound, h.apart, fun i d hc hh => h.inProcess i d ?_ ?_, nofun, ?_⟩
    · rw [hp]
      exact hc
    · rw [hp]
      exact hh
    · rintro ready i d p ⟨⟩
      exact (h.reading _ _ _ _ hp).2 _
  | submit hp hpool => exact ⟨h.bound, h.apart, nofun, nofun, nofun⟩
  | discard hp => exact ⟨h.bound, h.apart, nofun, nofun, nofun⟩
  | clear hp =>
    exact ⟨fun j d hj => h.bound j d (of_cleared hj), fun j k d d' hj hk =>
      h.apart j k d d' (of_cleared hj) (of_cleared hk), nofun, nofun, nofun⟩
  | @sweep i d hp hd =>
    refine ⟨fun j d hj => h.bound j d (of_cleared hj), fun j k d d' hj hk =>
      h.apart j k d d' (of_cleared hj) (of_cleared hk), nofun, fun j hj => ?_, nofun⟩
    change Function.update s.clientFds i none j = none
    rw [update_eq_iff]
    rcases Nat.lt_succ_iff_lt_or_eq.mp hj with hlt | rfl
    · refine Or.inr ⟨Nat.ne_of_lt hlt, h.swept j ?_⟩
      rw [hp]
      exact hlt
    · exact Or.inl ⟨rfl, rfl⟩
  | shutdown hp =>
    refine ⟨h.bound, h.apart, nofun, fun j _ => h.swept j ?_, nofun⟩
    rw [hp]
    trivial
  | stop hp =>
    refine ⟨h.bound, h.apart, nofun, fun j _ => h.swept j ?_, nofun⟩
    rw [hp]
    trivial

end Steps

end NervFS.Connections
