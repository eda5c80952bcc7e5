import NervFS.LoopReads

/-!
The numbers that the loop puts through `FD_SET` and `FD_ISSET`. The slots bound how many
connections it watches, not their numbers: the standard streams, the listener, the
connections of the pool and the files of its workers take numbers as well.
-/
namespace NervFS.FdSets

open Programs Transitions DescriptorTable Calls Protocol SelectLoop Connections LoopReads
open IdleClients
open Ledger (Handle)

section Bounds
variable {W : Type}

/-- The descriptors on which the next step of the loop executes `FD_SET` or `FD_ISSET`. -/
def fdSetUses (s : State W) : List ℕ :=
  match s.point with
  | .watch => s.watched
  | .listener _ => [listenFd]
  | .scan _ i => if i < nervfsMaxClients then ((s.clientFds i).map Handle.num).toList else []
  | _ => []

/-- The loop is about to call `accept`. -/
def isAccept : Point → Bool
  | .accept _ => true
  | _ => false

/-- When a client is accepted for a free slot, a number below `FD_SETSIZE` is not in use. -/
def Spared (s : State W) : Label W → Prop
  | .loop choice => isAccept s.point = true → choice.ok = true → s.freeSlot ≠ none →
      ∃ n < fdSetSize, s.table.get n = none
  | _ => True

instance (s : State W) (a : Label W) : Decidable (Spared s a) :=
  match a with
  | .loop choice => inferInstanceAs (Decidable (isAccept s.point = true → choice.ok = true →
      s.freeSlot ≠ none → ∃ n < fdSetSize, s.table.get n = none))
  | .connect | .arrive _ _ | .hangup _ | .interrupt | .test _ | .wake _ | .call _ _ _
  | .finish _ => isTrue trivial

/-- The numbers in the slots fit into a set, as does one that is about to get a slot. -/
structure Fits (s : State W) : Prop where
  slots : ∀ i d, s.clientFds i = some d → d.num < fdSetSize
  next : ∀ ready d, s.point = .place ready d → s.freeSlot ≠ none → d.num < fdSetSize

variable {s s' : State W}

theorem Fits.uses (h : Fits s) {n : ℕ} (hn : n ∈ fdSetUses s) : n < fdSetSize := by
  have hlisten : listenFd < fdSetSize := by decide
  have hslot : ∀ i, n ∈ ((s.clientFds i).map Handle.num).toList → n < fdSetSize := by
    intro i hi
    obtain ⟨d, hd, rfl⟩ := Option.map_eq_some_iff.mp (Option.mem_toList.mp hi)
    exact h.slots i d hd
  unfold fdSetUses at hn
  split at hn
  · rcases List.mem_cons.mp hn with rfl | hn
    · exact hlisten
    · obtain ⟨i, -, hi⟩ := List.mem_filterMap.mp hn
      exact hslot i (Option.mem_toList.mpr hi)
  · rw [List.mem_singleton.mp hn]
    exact hlisten
  · split at hn
    · exact hslot _ hn
    · cases hn
  · cases hn

/-- Only `accept` leads to a descriptor that waits for its slot. -/
def Settled : Point → Prop
  | .place _ _ => False
  | _ => True

theorem fits_settled (hp : Settled s.point)
    (hslots : ∀ i d, s.clientFds i = some d → d.num < fdSetSize) : Fits s := by
  refine ⟨hslots, fun ready d h => ?_⟩
  rw [h] at hp
  exact hp.elim

theorem Fits.frame (h : Fits s) (hpoint : s'.point = s.point)
    (hfds : s'.clientFds = s.clientFds) : Fits s' := by
  constructor
  · rw [hfds]
    exact h.slots
  · unfold State.freeSlot
    rw [hpoint, hfds]
    exact h.next

theorem start_fits : Fits (start W) := fits_settled trivial nofun

theorem settled_go {p : Point} (h : Goes s s.point p) : Settled p := by
  generalize s.point = o at h
  cases h <;> trivial

variable [DecidableEq W] [Fintype W]

theorem fits_loop {c : Choice W} (h : Fits s) (hspared : Spared s (.loop c))
    (hstep : loopNext s c = some s') : Fits s' := by
  have hslots := h.slots
  cases loop_cases hstep with
  | go hg => exact fits_settled (settled_go hg) hslots
  | @accept ready hp =>
    refine ⟨hslots, fun ready' d hd hfree => ?_⟩
    cases hd
    have hok : c.ok = true := by
      by_contra hno
      simp only [loopNext, hp, if_neg hno] at hstep
      cases congrArg State.point (Option.some.inj hstep)
    obtain ⟨n, hn, hunused⟩ := hspared (by rw [hp]; rfl) hok hfree
    exact (Table.lowest_le hunused).trans_lt hn
  | @place ready d slot hp hslot =>
    apply fits_settled (by trivial)
    intro i e he
    rcases update_eq_iff.mp he with hnew | hold
    · obtain ⟨-, hd⟩ := hnew
      cases hd
      apply h.next ready d hp
      rw [hslot]
      exact Option.some_ne_none slot
    · exact hslots i e hold.2
  | @receive ready i d fd len k q hp hq =>
    obtain ⟨sockets, hs⟩ := receive_state hq
    apply fits_settled (by trivial)
    intro i e he
    rw [hs] at he
    exact hslots i e he
  | clear hp => exact fits_settled trivial fun i d hd => hslots i d (of_cleared hd)
  | sweep hp hd => exact fits_settled trivial fun i d hd => hslots i d (of_cleared hd)
  | reject hp => exact fits_settled trivial hslots
  | pick hp hi hd hready => exact fits_settled trivial hslots
  | submit hp hpool => exact fits_settled trivial hslots
  | discard hp => exact fits_settled trivial hslots
  | shutdown hp => exact fits_settled trivial hslots
  | stop hp => exact fits_settled trivial hslots

theorem fits_step {root : Bytes} {a : Label W} (h : Fits s) (hspared : Spared s a)
    (hstep : next root s a = some s') : Fits s' := by
  cases a with
  | connect =>
    cases hstep
    exact h.frame rfl rfl
  | arrive c bytes =>
    obtain ⟨-, hs⟩ := Option.ite_none_right_eq_some.mp hstep
    cases hs
    exact h.frame rfl rfl
  | hangup c =>
    obtain ⟨-, hs⟩ := Option.ite_none_right_eq_some.mp hstep
    cases hs
    exact h.frame rfl rfl
  | interrupt =>
    cases hstep
    exact h.frame rfl rfl
  | loop choice => exact fits_loop h hspared hstep
  | test w =>
    obtain ⟨pool, -, rfl⟩ := Option.map_eq_some_iff.mp hstep
    exact h.frame rfl rfl
  | wake w =>
    obtain ⟨pool, -, rfl⟩ := Option.map_eq_some_iff.mp hstep
    exact h.frame rfl rfl
  | call w t reply =>
    change workerCall s w t reply = some s' at hstep
    unfold workerCall at hstep
    split at hstep
    · obtain ⟨q, hq, rfl⟩ := Option.map_eq_some_iff.mp hstep
      obtain ⟨hpoint, hfds, -⟩ := perform_frame hq
      exact h.frame hpoint hfds
    · cases hstep
  | finish w =>
    simp only [next] at hstep
    split at hstep
    · obtain ⟨pool, -, rfl⟩ := Option.map_eq_some_iff.mp hstep
      exact h.frame rfl rfl
    · cases hstep

/-- In a run in which every client that is accepted for a slot finds a number below
`FD_SETSIZE`, the loop stays within its sets. -/
theorem fd_sets_within {root : Bytes} {ls : List (Label W)}
    (h : Run (Where (Step root) fun s a _ => Spared s a) (start W) ls s) :
    ∀ n ∈ fdSetUses s, n < fdSetSize := by
  have hfits : Fits s :=
    h.invariant start_fits fun _ _ _ hfits hstep => fits_step hfits hstep.2 hstep.1
  exact fun n => hfits.uses

end Bounds

theorem fd_sets_within_accepted :
    ∃ s, follow (next []) (start Unit) (arrival Unit) = some s ∧ fdSetUses s = [4] ∧
      ∀ n ∈ fdSetUses s, n < fdSetSize := by
  have hrun : (follow (guarded (next []) Spared) (start Unit) (arrival Unit)).map fdSetUses =
      some [4] := by decide +kernel
  obtain ⟨s, hs, huses⟩ := Option.map_eq_some_iff.mp hrun
  exact ⟨s, follow_of_guarded hs, huses, fd_sets_within (run_of_guarded hs)⟩

/-- The client after the first 1020 is watched under the number 1024. -/
theorem fd_isset_out_of_bounds :
    ∃ ls s, Run (Step []) (start Unit) ls s ∧ ∃ n ∈ fdSetUses s, fdSetSize ≤ n := by
  have hidle : Run (Step []) (start Unit) (arrivals Unit 1020) (idle Unit 1020) :=
    arrivals_run le_rfl
  have haccept : Run (Step []) (idle Unit 1020) (arrival Unit)
      { idle Unit 1021 with point := .scan [listenFd] 0 } := accept_run le_rfl
  have hscan : Run (Step []) { idle Unit 1021 with point := .scan [listenFd] 0 }
      (loops Unit 1020) { idle Unit 1021 with point := .scan [listenFd] 1020 } :=
    idle_scan (by omega) (by decide)
  refine ⟨_, _, hidle.append (haccept.append hscan), 1024, ?_, le_rfl⟩
  decide +kernel

end NervFS.FdSets
