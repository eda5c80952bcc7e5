import NervFS.OneOwner

/-!
Clients that connect and send nothing. Each takes the lowest free number and the first free
slot, and the loop is back at its top after one pass over the slots.
-/
namespace NervFS.IdleClients

open Programs Transitions DescriptorTable Calls Protocol SelectLoop Connections
open Ledger (Handle)

section Idle
variable {W : Type}

def objects (W : Type) (k : ℕ) : List (Object W) :=
  [.standard, .standard, .standard, .listener] ++ (List.range k).map .conn

/-- The server with `k` clients that have sent nothing. -/
def idle (W : Type) (k : ℕ) : State W :=
  { start W with
    clientFds := fun i => if i < k then some ⟨4 + i, i⟩ else none
    table := (objects W k).map some
    connected := k
    accepted := k }

/-- The same with one more client that waits to be accepted. -/
def waiting (W : Type) (k : ℕ) (p : Point) : State W :=
  { idle W k with point := p, connected := k + 1 }

/-- That client after `accept`. -/
def accepted (W : Type) (k : ℕ) : State W :=
  { waiting W k (.place [listenFd] ⟨4 + k, k⟩) with
    table := (objects W (k + 1)).map some
    accepted := k + 1 }

/-- A number of steps of the loop thread in which every call succeeds. -/
def loops (W : Type) (n : ℕ) : List (Label W) := List.replicate n (.loop {})

/-- A client connects and is accepted. -/
def arrival (W : Type) : List (Label W) := .connect :: loops W 6

/-- The first `k` clients connect, and each is accepted in a pass of its own. -/
def arrivals (W : Type) : ℕ → List (Label W)
  | 0 => []
  | k + 1 => arrivals W k ++ (arrival W ++ loops W (nervfsMaxClients + 1))

theorem objects_length (k : ℕ) : (objects W k).length = 4 + k := by
  unfold objects
  rw [List.length_append, List.length_map, List.length_range]
  rfl

theorem objects_succ (k : ℕ) : objects W k ++ [.conn k] = objects W (k + 1) := by
  unfold objects
  rw [List.append_assoc, List.range_succ, List.map_append, List.map_singleton]

theorem idle_get {k n : ℕ} {o : Object W} (h : (objects W k)[n]? = some o) :
    Table.get ((objects W k).map some) n = some o := by
  unfold Table.get
  rw [List.getElem?_map, h]
  rfl

theorem idle_conn {k i : ℕ} (h : i < k) : (idle W k).table.get (4 + i) = some (.conn i) := by
  apply idle_get
  unfold objects
  rw [List.getElem?_append_right (by simp)]
  simp [h]

theorem idle_listener (k : ℕ) : (idle W k).table.get listenFd = some .listener := idle_get rfl

theorem mem_idle_watched {k n : ℕ} (hk : k ≤ nervfsMaxClients) :
    n ∈ (idle W k).watched ↔ n = listenFd ∨ ∃ i < k, n = 4 + i := by
  unfold State.watched
  rw [List.mem_cons, List.mem_filterMap]
  apply or_congr_right
  constructor
  · intro h
    obtain ⟨i, -, hi⟩ := h
    obtain ⟨d, hd, hnum⟩ := Option.map_eq_some_iff.mp hi
    obtain ⟨hlt, heq⟩ := Option.ite_none_right_eq_some.mp hd
    cases heq
    exact ⟨i, hlt, hnum.symm⟩
  · intro h
    obtain ⟨i, hi, rfl⟩ := h
    refine ⟨i, List.mem_range.mpr (by omega), ?_⟩
    change Option.map Handle.num (if i < k then some ⟨4 + i, i⟩ else none) = _
    rw [if_pos hi]
    rfl

theorem idle_freeSlot {k : ℕ} {s : State W} (hfds : s.clientFds = (idle W k).clientFds)
    (hk : k < nervfsMaxClients) : s.freeSlot = some k := by
  unfold State.freeSlot
  rw [hfds, List.find?_range_eq_some]
  refine ⟨?_, List.mem_range.mpr hk, fun j hj => ?_⟩
  · exact congrArg Option.isNone (if_neg (lt_irrefl k))
  · change (!Option.isNone (if j < k then some (⟨4 + j, j⟩ : Handle) else none)) = true
    rw [if_pos hj]
    rfl

variable [DecidableEq W] [Fintype W] {root : Bytes} {s : State W}

theorem scan_run {ready : List ℕ} {m : ℕ} (hm : m ≤ nervfsMaxClients)
    (hslots : ∀ j < m, ∀ d, s.clientFds j = some d → d.num ∉ ready ∧ d.num < fdSetSize) :
    Run (Step root) { s with point := .scan ready 0 } (loops W m)
      { s with point := .scan ready m } := by
  induction m with
  | zero => exact Run.nil
  | succ m ih =>
    have hrun := ih (by omega) fun j hj => hslots j (by omega)
    unfold loops
    rw [List.replicate_succ']
    apply Run.snoc hrun
    change loopNext { s with point := .scan ready m } {} =
      some { s with point := .scan ready (m + 1) }
    unfold loopNext
    dsimp only
    rw [if_pos (by omega)]
    cases hd : s.clientFds m with
    | none => rfl
    | some d =>
      obtain ⟨hready, hlt⟩ := hslots m (by omega) d hd
      dsimp only
      rw [if_pos hlt, if_neg hready]

theorem watch_next (hp : s.point = .watch) (hwatched : ∀ n ∈ s.watched, n < fdSetSize) :
    loopNext s {} = some { s with point := .select } := by
  unfold loopNext
  rw [hp]
  exact if_pos hwatched

theorem select_next {n : ℕ} {rest : List ℕ} (hp : s.point = .select)
    (hopen : ∀ m ∈ s.watched, (s.table.get m).isSome)
    (hready : s.watched.filter s.isReady = n :: rest) :
    loopNext s {} = some { s with point := .listener (n :: rest) } := by
  unfold loopNext
  rw [hp]
  dsimp only
  rw [if_pos ⟨rfl, hopen⟩, hready]

theorem place_next {ready : List ℕ} {d : Handle} {slot : ℕ} (hp : s.point = .place ready d)
    (hslot : s.freeSlot = some slot) :
    loopNext s {} = some { s with
      point := .scan ready 0
      clientFds := Function.update s.clientFds slot (some d) } := by
  unfold loopNext
  rw [hp]
  dsimp only
  rw [hslot]

omit [DecidableEq W] [Fintype W] in
/-- The clients that are there have sent nothing, so only the listener is ready. -/
theorem waiting_ready (k : ℕ) :
    (waiting W k .select).watched.filter (waiting W k .select).isReady = [listenFd] := by
  have hlisten : (waiting W k .select).isReady listenFd = true := by
    have hopen : (waiting W k .select).table.get listenFd = some .listener := idle_listener k
    unfold State.isReady
    rw [hopen]
    exact decide_eq_true (Nat.lt_succ_self k)
  unfold State.watched
  rw [List.filter_cons_of_pos hlisten]
  apply congrArg (listenFd :: ·)
  rw [List.filter_eq_nil_iff]
  intro n hn
  obtain ⟨i, -, hi⟩ := List.mem_filterMap.mp hn
  obtain ⟨d, hd, rfl⟩ := Option.map_eq_some_iff.mp hi
  obtain ⟨hlt, hd⟩ := Option.ite_none_right_eq_some.mp hd
  cases hd
  have hconn : (waiting W k .select).table.get (4 + i) = some (.conn i) := idle_conn hlt
  unfold State.isReady
  dsimp only
  rw [hconn]
  exact Bool.false_ne_true

theorem scan_end {ready : List ℕ} (hp : s.point = .scan ready nervfsMaxClients) :
    loopNext s {} = some { s with point := .top } := by
  unfold loopNext
  rw [hp]
  exact if_neg (lt_irrefl nervfsMaxClients)

omit [DecidableEq W] [Fintype W] in
theorem accepted_placed (k : ℕ) :
    { accepted W k with
      point := .scan [listenFd] 0
      clientFds := Function.update (accepted W k).clientFds k (some ⟨4 + k, k⟩) } =
        { idle W (k + 1) with point := .scan [listenFd] 0 } := by
  have hfds : Function.update (accepted W k).clientFds k (some ⟨4 + k, k⟩) =
      (idle W (k + 1)).clientFds := by
    funext i
    change _ = if i < k + 1 then _ else _
    by_cases hi : i = k
    · subst hi
      rw [Function.update_self, if_pos (Nat.lt_succ_self i)]
    · rw [Function.update_of_ne hi]
      exact if_congr (by omega) rfl rfl
  rw [hfds]
  rfl

theorem accept_next (k : ℕ) :
    loopNext (waiting W k (.accept [listenFd])) {} = some (accepted W k) := by
  have hlowest : (waiting W k (.accept [listenFd])).table.lowest = 4 + k := by
    change Table.lowest ((objects W k).map some) = _
    rw [Table.lowest_map_some, objects_length]
  have htable : (waiting W k (.accept [listenFd])).table.alloc (.conn k) =
      (objects W (k + 1)).map some := by
    change Table.alloc _ ((objects W k).map some) = _
    rw [Table.alloc_map_some, objects_succ]
  unfold accepted
  rw [← hlowest, ← htable]
  exact if_pos (Nat.lt_succ_self k)

/-- Up to the place at which the numbers reach `FD_SETSIZE`, a client that connects is
accepted. -/
theorem accept_run {k : ℕ} (hk : k ≤ 1020) :
    Run (Step root) (idle W k) (arrival W)
      { idle W (k + 1) with point := .scan [listenFd] 0 } := by
  have hmax : k < nervfsMaxClients := by unfold nervfsMaxClients; omega
  have hwatched : ∀ n ∈ (idle W k).watched, n < fdSetSize ∧ ((idle W k).table.get n).isSome := by
    intro n hn
    unfold fdSetSize
    rcases (mem_idle_watched hmax.le).mp hn with rfl | ⟨i, hi, rfl⟩
    · rw [idle_listener]
      exact ⟨by decide, rfl⟩
    · rw [idle_conn hi]
      exact ⟨by omega, rfl⟩
  have hwatch := watch_next (s := waiting W k .watch) rfl fun n hn => (hwatched n hn).1
  have hselect := select_next (s := waiting W k .select) rfl (fun n hn => (hwatched n hn).2)
    (waiting_ready k)
  have hslot : (accepted W k).freeSlot = some k := idle_freeSlot rfl hmax
  have hplace := place_next (s := accepted W k) rfl hslot
  rw [accepted_placed] at hplace
  apply Run.cons (m := waiting W k .top) rfl
  apply Run.cons (m := waiting W k .watch) rfl
  apply Run.cons (m := waiting W k .select) hwatch
  apply Run.cons (m := waiting W k (.listener [listenFd])) hselect
  apply Run.cons (m := waiting W k (.accept [listenFd])) rfl
  apply Run.cons (accept_next k)
  exact Run.single hplace

theorem idle_scan {k m : ℕ} (hk : min k m ≤ 1020) (hm : m ≤ nervfsMaxClients) :
    Run (Step root) { idle W k with point := .scan [listenFd] 0 } (loops W m)
      { idle W k with point := .scan [listenFd] m } := by
  apply scan_run hm
  intro j hj d hd
  obtain ⟨hlt, hd⟩ := Option.ite_none_right_eq_some.mp hd
  cases hd
  unfold listenFd fdSetSize
  rw [List.mem_singleton]
  dsimp only
  omega

theorem pass_run {k : ℕ} (hk : k ≤ 1020) :
    Run (Step root) { idle W k with point := .scan [listenFd] 0 }
      (loops W (nervfsMaxClients + 1)) (idle W k) := by
  unfold loops
  rw [List.replicate_succ']
  apply Run.snoc (idle_scan ((Nat.min_le_left ..).trans hk) le_rfl)
  have hend := scan_end (s := { idle W k with point := .scan [listenFd] nervfsMaxClients }) rfl
  exact hend

theorem arrivals_run {k : ℕ} (hk : k ≤ 1020) :
    Run (Step root) (start W) (arrivals W k) (idle W k) := by
  induction k with
  | zero => exact Run.nil
  | succ k ih =>
    apply (ih (by omega)).append
    apply (accept_run (by omega)).append
    exact pass_run hk

end Idle

end NervFS.IdleClients
