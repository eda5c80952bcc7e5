import NervFS.IdleClients

/-!
Whether a client can make the accept loop wait. `select` vouches for one read on each
socket that it reports, and the bytes stay there until the loop comes to the slot. The
header is collected by a loop of reads, so the second read of a header relies on what the
first one has left.
-/
namespace NervFS.LoopReads

open Programs Transitions DescriptorTable Calls Protocol SelectLoop JobDescriptors Connections
open Handover OneOwner IdleClients
open Ledger (Handle)

section Reads
variable {W : Type}

/-- The read that the loop is about to issue, if there is one, is on a socket with buffered
bytes or at its end of file. -/
def NeverWaits (s : State W) : Prop :=
  ∀ ready i d fd len k, s.point = .read ready i d (.call (.sockRead fd len) k) →
    ∃ c, s.table.get fd = some (.conn c) ∧ (s.sockets c).Readable

/-- A read of the loop that finds the rest of the header or the end of file, or fails, or
leaves something for the next read. -/
def Fed (s : State W) : Label W → Prop
  | .loop choice =>
    match s.point with
    | .read _ _ d (.call (.sockRead _ len) _) =>
      choice.transfer = .error ∨ (s.sockets d.token).ended = true ∨
        len ≤ (s.sockets d.token).buffered.length ∨
        amount choice.transfer len < (s.sockets d.token).buffered.length
    | _ => True
  | _ => True

/-- What becomes of the collected bytes of a header. -/
def headerOf : Option Bytes → Prog (Option Header)
  | none => return none
  | some got => if got.length < nervfsHeaderSize then return none else return parseHeader got

/-- The rest of `handle_client_readable` after any number of its reads. -/
inductive Collects (fd : ℕ) : Prog (Option Header) → Prop
  | done (r : Option Header) : Collects fd (.ret r)
  | reading {rounds : ℕ} {got : Bytes} (hgot : got.length < nervfsHeaderSize)
    (hrounds : nervfsHeaderSize ≤ got.length + rounds) :
    Collects fd (recvLoop fd nervfsHeaderSize rounds got >>= headerOf)

theorem handleClientReadable_eq (fd : ℕ) :
    handleClientReadable fd = recvFull fd nervfsHeaderSize >>= headerOf := by
  unfold handleClientReadable
  congr 1

theorem handleClientReadable_collects (fd : ℕ) : Collects fd (handleClientReadable fd) := by
  rw [handleClientReadable_eq]
  exact .reading (Nat.zero_lt_succ _) (Nat.le_add_left ..)

theorem headerOf_ret (r : Option Bytes) : ∃ header, headerOf r = .ret header := by
  cases r with
  | none => exact ⟨none, rfl⟩
  | some got =>
    by_cases h : got.length < nervfsHeaderSize
    · exact ⟨none, if_pos h⟩
    · exact ⟨parseHeader got, if_neg h⟩

theorem recvLoop_done {fd len rounds : ℕ} {got : Bytes} (h : len ≤ got.length) :
    recvLoop fd len rounds got = .ret (some got) := by
  cases rounds with
  | zero => rfl
  | succ rounds => exact if_pos h

theorem recvLoop_more {fd len rounds : ℕ} {got : Bytes} (h : got.length < len) :
    recvLoop fd len (rounds + 1) got = .call (.sockRead fd (len - got.length)) fun r =>
      match r with
      | none => .ret none
      | some chunk =>
        if chunk.val = [] then .ret (some got)
        else recvLoop fd len rounds (got ++ chunk.val) := by
  rw [recvLoop, if_neg (Nat.not_le_of_lt h)]
  refine congrArg (Program.call _) (funext fun r => ?_)
  cases r with
  | none => rfl
  | some chunk => rfl

/-- A read of the header is followed by another one exactly when it brings some bytes, but
not all that are missing. -/
theorem collects_read {fd fd' len : ℕ}
    {k : Reply (.sockRead fd' len) → Prog (Option Header)}
    (h : Collects fd (.call (.sockRead fd' len) k)) :
    fd' = fd ∧ 0 < len ∧ ∀ r, Collects fd (k r) ∧ ((∃ e f, k r = .call e f) ↔
      ∃ chunk, r = some chunk ∧ chunk.val ≠ [] ∧ chunk.val.length < len) := by
  generalize hp : (Program.call (Call.sockRead fd' len) k : Prog (Option Header)) = p at h
  cases h with
  | done r => cases hp
  | @reading rounds got hgot hrounds =>
    obtain ⟨rounds, rfl⟩ : ∃ n, rounds = n + 1 := Nat.exists_eq_succ_of_ne_zero (by omega)
    rw [recvLoop_more hgot, Program.call_bind] at hp
    cases hp
    have hend : ∀ r, Collects fd (headerOf r) ∧ ¬ ∃ e f, headerOf r = .call e f := by
      intro r
      obtain ⟨header, hret⟩ := headerOf_ret r
      rw [hret]
      exact ⟨.done header, nofun⟩
    refine ⟨rfl, Nat.sub_pos_of_lt hgot, fun r => ?_⟩
    cases r with
    | none =>
      refine ⟨(hend none).1, iff_of_false (hend none).2 ?_⟩
      exact nofun
    | some chunk =>
      change Collects fd ((if chunk.val = [] then _ else _ : Prog _) >>= headerOf) ∧
        ((∃ e f, (if chunk.val = [] then _ else _ : Prog _) >>= headerOf = .call e f) ↔ _)
      by_cases hnil : chunk.val = []
      · rw [if_pos hnil, Program.ret_bind]
        refine ⟨(hend _).1, iff_of_false (hend _).2 ?_⟩
        intro h
        obtain ⟨chunk', hchunk, hne, -⟩ := h
        cases hchunk
        exact hne hnil
      · have hlen := List.length_pos_iff.mpr hnil
        rw [if_neg hnil]
        by_cases hmore : chunk.val.length < nervfsHeaderSize - got.length
        · have hgot' : (got ++ chunk.val).length < nervfsHeaderSize := by
            rw [List.length_append]
            omega
          have hrounds' : nervfsHeaderSize ≤ (got ++ chunk.val).length + rounds := by
            rw [List.length_append]
            omega
          refine ⟨.reading hgot' hrounds', iff_of_true ?_ ⟨chunk, rfl, hnil, hmore⟩⟩
          obtain ⟨rounds, rfl⟩ : ∃ n, rounds = n + 1 := Nat.exists_eq_succ_of_ne_zero (by omega)
          rw [recvLoop_more hgot', Program.call_bind]
          exact ⟨_, _, rfl⟩
        · have hdone : nervfsHeaderSize ≤ (got ++ chunk.val).length := by
            rw [List.length_append]
            omega
          rw [recvLoop_done hdone, Program.ret_bind]
          refine ⟨(hend _).1, iff_of_false (hend _).2 ?_⟩
          intro h
          obtain ⟨chunk', hchunk, -, hshort⟩ := h
          cases hchunk
          exact hmore hshort

theorem collects_call {fd : ℕ} {p : Prog (Option Header)} (h : Collects fd p)
    (hcall : ∃ e f, p = .call e f) : ∃ len f, p = .call (.sockRead fd len) f := by
  cases h with
  | done r =>
    obtain ⟨e, f, heq⟩ := hcall
    cases heq
  | @reading rounds got hgot hrounds =>
    obtain ⟨rounds, rfl⟩ : ∃ n, rounds = n + 1 := Nat.exists_eq_succ_of_ne_zero (by omega)
    rw [recvLoop_more hgot, Program.call_bind]
    exact ⟨_, _, rfl⟩

/-- The set that `select` returned and the first slot that is still to be looked at. -/
def unseen : Point → Option (List ℕ × ℕ)
  | .listener ready | .accept ready | .place ready _ | .reject ready _ => some (ready, 0)
  | .scan ready i => some (ready, i)
  | .read ready i _ _ | .submit ready i _ _ | .discard ready i _ | .clear ready i =>
    some (ready, i + 1)
  | _ => none

/-- What `select` has reported is still there when the loop comes to it. -/
structure Vouched (s : State W) : Prop where
  slots : ∀ ready i, unseen s.point = some (ready, i) → ∀ j d, i ≤ j → s.clientFds j = some d →
    d.num ∈ ready → (s.sockets d.token).Readable
  watched : ∀ ready, s.point = .listener ready ∨ s.point = .accept ready →
    ∀ n ∈ ready, n ∈ s.watched
  fresh : ∀ ready d, s.point = .place ready d → d.num ∉ ready
  reading : ∀ ready i d p, s.point = .read ready i d p →
    Collects d.num p ∧ ((∃ e f, p = .call e f) → (s.sockets d.token).Readable)

variable {s s' : State W}

theorem receive_other {fd len c c' : ℕ} {t : Kernel.Transfer} {q}
    (hc : s.table.get fd = some (.conn c))
    (h : s.receive fd len t = some q) (hne : c' ≠ c) : q.2.sockets c' = s.sockets c' := by
  unfold State.receive at h
  rw [hc] at h
  split at h
  · cases h
    rfl
  · next heq =>
    cases heq
    split at h
    · split at h
      · cases h
        rfl
      · cases h
    · cases h
      exact Function.update_of_ne hne ..
  · cases h
    rfl

theorem amount_pos (t : Kernel.Transfer) {len : ℕ} (h : 0 < len) : 0 < amount t len := by
  unfold amount
  split
  · omega
  · exact h

/-- A socket from which `n` bytes are taken, when `len` bytes are missing. -/
theorem readable_drop_iff {k : Socket} {n len : ℕ} (hn : n ≤ len) :
    ((k.buffered.take n).length < len →
      ({ k with buffered := k.buffered.drop n } : Socket).Readable) ↔
    (k.ended = true ∨ len ≤ k.buffered.length ∨ n < k.buffered.length) := by
  have hdrop : k.buffered.drop n ≠ [] ↔ n < k.buffered.length := by
    rw [ne_eq, List.drop_eq_nil_iff, Nat.not_le]
  unfold Socket.Readable
  rw [hdrop, List.length_take]
  constructor
  · intro h
    by_cases hended : k.ended = true
    · exact Or.inl hended
    · by_cases hlen : len ≤ k.buffered.length
      · exact Or.inr (Or.inl hlen)
      · exact Or.inr (Or.inr ((h (by omega)).resolve_right hended))
  · intro h htake
    rcases h with hended | hlen | hmore
    · exact Or.inr hended
    · exact Or.inl (by omega)
    · exact Or.inl hmore

/-- What a read has to find, so that another read after a part of the bytes finds some. -/
theorem receive_readable_iff {fd len c : ℕ} {t : Kernel.Transfer} {q} (hlen : 0 < len)
    (hc : s.table.get fd = some (.conn c)) (h : s.receive fd len t = some q) :
    ((∃ chunk, q.1 = some chunk ∧ chunk.val ≠ [] ∧ chunk.val.length < len) →
      (q.2.sockets c).Readable) ↔
    (t = .error ∨ (s.sockets c).ended = true ∨ len ≤ (s.sockets c).buffered.length ∨
      amount t len < (s.sockets c).buffered.length) := by
  unfold State.receive at h
  rw [hc] at h
  split at h
  · cases h
    exact iff_of_true nofun (Or.inl rfl)
  · next heq =>
    cases heq
    split at h
    · split at h
      · next hended =>
        cases h
        refine iff_of_true ?_ (Or.inr (Or.inl hended))
        intro hread
        obtain ⟨chunk, hchunk, hne, -⟩ := hread
        cases hchunk
        exact absurd rfl hne
      · cases h
    · next t _ _ hterror hbuf =>
      cases h
      have htake : (s.sockets c).buffered.take (amount t len) ≠ [] := by
        have hpos := amount_pos t hlen
        have hbytes := List.length_pos_iff.mpr hbuf
        apply List.ne_nil_of_length_pos
        rw [List.length_take]
        omega
      dsimp only
      rw [Function.update_self, or_iff_right hterror, ← readable_drop_iff (amount_le t len)]
      constructor
      · exact fun hread hshort => hread ⟨_, rfl, htake, hshort⟩
      · intro hread hmore
        obtain ⟨chunk, hchunk, -, hshort⟩ := hmore
        cases hchunk
        exact hread hshort
  · next hnone => exact absurd rfl (hnone c)

end Reads

section Steps
variable {W : Type} [DecidableEq W] {s s' : State W}

omit [DecidableEq W] in
/-- A slot that the loop has yet to look at is the owner of its descriptor. -/
theorem slot_holder {ready : List ℕ} {i j : ℕ} {d : Handle}
    (hu : unseen s.point = some (ready, i)) (hij : i ≤ j) (hd : s.clientFds j = some d) :
    holder s (.slot j) = some d := by
  have hcurrent : current s.point ≠ some j := by
    generalize s.point = p at hu
    intro hc
    cases p with
    | read r k e q =>
      cases hu
      cases hc
      omega
    | submit r k e q =>
      cases hu
      cases hc
      omega
    | discard r k e =>
      cases hu
      cases hc
      omega
    | clear r k =>
      cases hu
      cases hc
      omega
    | _ => cases hc
  simp only [holder, if_neg hcurrent]
  exact hd

omit [DecidableEq W] in
theorem reading_holder {ready : List ℕ} {i : ℕ} {d : Handle} {p : Prog (Option Header)}
    (hp : s.point = .read ready i d p) : holder s (.loop : Owner W) = some d := by
  simp [holder, pending, hp]

omit [DecidableEq W] in
/-- Steps of others neither move the loop nor take the bytes of its sockets. -/
theorem Vouched.frame (h : Vouched s) (hpoint : s'.point = s.point)
    (hfds : s'.clientFds = s.clientFds)
    (hsock : ∀ o d, holder s o = some d → (∀ w, o ≠ .worker w) →
      (s.sockets d.token).Readable → (s'.sockets d.token).Readable) : Vouched s' := by
  constructor
  · intro ready i hu j d hij hd hready
    rw [hpoint] at hu
    rw [hfds] at hd
    exact hsock (.slot j) d (slot_holder hu hij hd) nofun (h.slots ready i hu j d hij hd hready)
  · intro ready hp n hn
    rw [hpoint] at hp
    have hold := h.watched ready hp n hn
    unfold State.watched at hold ⊢
    rw [hfds]
    exact hold
  · intro ready d hp
    rw [hpoint] at hp
    exact h.fresh ready d hp
  · intro ready i d p hp
    rw [hpoint] at hp
    obtain ⟨hcollects, hreadable⟩ := h.reading ready i d p hp
    exact ⟨hcollects, fun hcall => hsock .loop d (reading_holder hp) nofun (hreadable hcall)⟩

omit [DecidableEq W] in
theorem start_vouched : Vouched (start W) :=
  ⟨nofun, fun _ hp => hp.elim nofun nofun, nofun, nofun⟩

omit [DecidableEq W] in
theorem perform_frame {w : W} {ticket : ℕ} {t : Kernel.Transfer}
    {reply : (e : Call) → Reply e} {e : Call} {q} (h : s.perform w ticket t reply e = some q) :
    q.2.point = s.point ∧ q.2.clientFds = s.clientFds ∧
      ((∀ fd len, e ≠ .sockRead fd len) → q.2.sockets = s.sockets) := by
  cases e with
  | sockRead fd len =>
    obtain ⟨sockets, hs⟩ := receive_state h
    rw [hs]
    exact ⟨rfl, rfl, fun hno => absurd rfl (hno fd len)⟩
  | openWrite path =>
    simp only [State.perform] at h
    split at h <;> (cases h; exact ⟨rfl, rfl, fun _ => rfl⟩)
  | openRead path =>
    simp only [State.perform] at h
    split at h <;> (cases h; exact ⟨rfl, rfl, fun _ => rfl⟩)
  | opendir =>
    simp only [State.perform] at h
    split at h <;> (cases h; exact ⟨rfl, rfl, fun _ => rfl⟩)
  | _ =>
    cases h
    exact ⟨rfl, rfl, fun _ => rfl⟩

theorem vouched_call {w : W} {a ticket : ℕ} {t : Kernel.Transfer}
    {reply : (e : Call) → Reply e} {e : Call} {k : Reply e → Prog Unit} {q}
    (hi : Handover.Inv s) (h : Vouched s) (hbusy : s.pool.worker w = .busy a ticket)
    (hwork : s.work w = .call e k) (hq : s.perform w ticket t reply e = some q) :
    Vouched { q.2 with work := Function.update q.2.work w (k q.1) } := by
  obtain ⟨hpoint, hfds, hsockets⟩ := perform_frame hq
  suffices hframe : Vouched q.2 from
    ⟨hframe.slots, hframe.watched, hframe.fresh, hframe.reading⟩
  apply h.frame hpoint hfds
  intro o d ho hworker hread
  by_cases hsock : ∃ fd len, e = .sockRead fd len
  · obtain ⟨fd, len, rfl⟩ := hsock
    obtain ⟨d', held, hd', -⟩ := (hi.working w).busy a ticket hbusy
    have hclient : client s w = some d' := (client_busy hbusy).trans hd'
    have huse : (fd, Object.conn d'.token) ∈ uses s (.call w t reply) := by
      simp only [uses, hclient, hwork, List.mem_singleton]
    have hconn := call_uses hi huse
    have hne := token_ne hi.ledger ho (hworker w) hclient
    rw [receive_other hconn hq hne.symm]
    exact hread
  · rw [hsockets fun fd len he => hsock ⟨fd, len, he⟩]
    exact hread

/-- The points at which the loop relies on nothing but the slots it has yet to look at. -/
def Plain : Point → Prop
  | .listener _ | .accept _ | .place _ _ | .read _ _ _ _ => False
  | _ => True

omit [DecidableEq W] in
theorem vouched_plain (hp : Plain s.point)
    (hslots : ∀ ready i, unseen s.point = some (ready, i) → ∀ j d, i ≤ j →
      s.clientFds j = some d → d.num ∈ ready → (s.sockets d.token).Readable) : Vouched s := by
  refine ⟨hslots, fun ready h => ?_, fun ready d h => ?_, fun ready i d p h => ?_⟩
  · rcases h with h | h
    · rw [h] at hp
      exact hp.elim
    · rw [h] at hp
      exact hp.elim
  · rw [h] at hp
    exact hp.elim
  · rw [h] at hp
    exact hp.elim

/-- The number of a new connection is not one that `select` was asked about. -/
theorem lowest_not_watched (h : Handover.Inv s) {ready : List ℕ} (hp : s.point = .accept ready) :
    s.table.lowest ∉ s.watched := by
  intro hmem
  have hfree := Table.get_lowest s.table
  rcases List.mem_cons.mp hmem with heq | hmem
  · rw [heq, h.listening (by rw [hp]; exact nofun)] at hfree
    cases hfree
  · obtain ⟨i, -, hi⟩ := List.mem_filterMap.mp hmem
    obtain ⟨d, hd, hnum⟩ := Option.map_eq_some_iff.mp hi
    have hheld : holder s (.slot i) = some d := by simp [holder, current, hp, hd]
    have hopen := live h hheld
    rw [hnum, hfree] at hopen
    cases hopen

/-- What `select` reports for a slot is what the socket of its connection holds. -/
theorem readable_of_ready (h : Handover.Inv s) (hp : s.point = .select) {j : ℕ} {d : Handle}
    (hd : s.clientFds j = some d) (hready : s.isReady d.num = true) :
    (s.sockets d.token).Readable := by
  have hheld : holder s (.slot j) = some d := by simp [holder, current, hp, hd]
  have hopen := live h hheld
  unfold State.isReady at hready
  rw [hopen] at hready
  exact of_decide_eq_true hready

/-- The moves of the loop that change nothing but where it stands. -/
theorem vouched_go {p : Point} (hi : Handover.Inv s) (h : Vouched s) (hg : Goes s s.point p) :
    Vouched { s with point := p } := by
  have hslots := h.slots
  have hwatched := h.watched
  have hselected : s.point = .select → ∀ j d, s.clientFds j = some d →
      d.num ∈ s.watched.filter s.isReady → (s.sockets d.token).Readable :=
    fun hp j d hd hready => readable_of_ready hi hp hd (List.mem_filter.mp hready).2
  generalize s.point = o at hg hslots hwatched hselected
  cases hg with
  | selected =>
    refine ⟨?_, fun ready hp n hn => ?_, nofun, nofun⟩
    · intro ready i hu j d _ hd hready
      cases hu
      exact hselected rfl j d hd hready
    · rcases hp with hp | hp
      · cases hp
        exact (List.mem_filter.mp hn).1
      · cases hp
  | incoming hin =>
    refine ⟨hslots, fun ready hp n hn => ?_, nofun, nofun⟩
    rcases hp with hp | hp
    · cases hp
    · cases hp
      exact hwatched _ (Or.inl rfl) n hn
  | skip hskip =>
    apply vouched_plain (by trivial)
    intro ready i hu j d hij hd hready
    cases hu
    exact hslots _ _ rfl j d (Nat.le_of_succ_le hij) hd hready
  | again => exact vouched_plain trivial nofun
  | run => exact vouched_plain trivial nofun
  | leave => exact vouched_plain trivial nofun
  | watch hw => exact vouched_plain trivial nofun
  | failed => exact vouched_plain trivial nofun
  | empty hnone => exact vouched_plain trivial nofun
  | swept hmax => exact vouched_plain trivial nofun
  | joined hall => exact vouched_plain trivial nofun
  | quiet => exact vouched_plain trivial hslots
  | refused => exact vouched_plain trivial hslots
  | full hfull => exact vouched_plain trivial hslots
  | bad => exact vouched_plain trivial hslots
  | header => exact vouched_plain trivial hslots
  | noMemory => exact vouched_plain trivial hslots

theorem vouched_loop [Fintype W] {c : Choice W} (hi : Handover.Inv s) (h : Vouched s)
    (hfed : Fed s (.loop c)) (hstep : LoopStep s c s') : Vouched s' := by
  have hslots := h.slots
  cases hstep with
  | go hg => exact vouched_go hi h hg
  | @accept ready hp =>
    rw [hp] at hslots
    refine ⟨hslots, fun _ hp' => hp'.elim nofun nofun, ?_, nofun⟩
    intro ready' d hd hmem
    cases hd
    exact lowest_not_watched hi hp (h.watched ready (Or.inr hp) _ hmem)
  | @place ready d slot hp hslot =>
    rw [hp] at hslots
    apply vouched_plain (by trivial)
    intro ready' i hu j e _ he hready
    cases hu
    rcases update_eq_iff.mp he with hnew | hold
    · obtain ⟨-, hd⟩ := hnew
      cases hd
      exact absurd hready (h.fresh ready d hp)
    · exact hslots ready 0 rfl j e (Nat.zero_le j) hold.2 hready
  | @reject ready d hp =>
    rw [hp] at hslots
    exact vouched_plain trivial hslots
  | @pick ready i d hp hlt hd hready =>
    rw [hp] at hslots
    refine ⟨?_, fun _ hp' => hp'.elim nofun nofun, nofun, ?_⟩
    · intro ready' i' hu j e hij he hmem
      cases hu
      exact hslots _ _ rfl j e (Nat.le_of_succ_le hij) he hmem
    · intro ready' i' d' p hread
      cases hread
      exact ⟨handleClientReadable_collects _, fun _ => hslots ready i rfl i d le_rfl hd hready⟩
  | @receive ready i d fd len k q hp hq =>
    rw [hp] at hslots
    have hloop := reading_holder (W := W) hp
    have hconn := live hi hloop
    obtain ⟨sockets, hs⟩ := receive_state hq
    obtain ⟨rfl, hlen, hnext⟩ := collects_read (h.reading _ _ _ _ hp).1
    refine ⟨?_, fun _ hp' => hp'.elim nofun nofun, nofun, ?_⟩
    · intro ready' i' hu j e hij he hready
      cases hu
      have hfds : q.2.clientFds = s.clientFds := by rw [hs]
      change (q.2.sockets e.token).Readable
      have hslot : s.clientFds j = some e := hfds ▸ he
      have hheld : holder s (.slot j) = some e := slot_holder (by rw [hp]; rfl) hij hslot
      have hne : e.token ≠ d.token := by
        intro heq
        cases hi.ledger.exclusive (.slot j) .loop e d hheld hloop heq
      rw [receive_other hconn hq hne]
      exact hslots _ _ rfl j e hij hslot hready
    · intro ready' i' d' p hread
      cases hread
      obtain ⟨hcollects, hcall⟩ := hnext q.1
      refine ⟨hcollects, fun hmore => ?_⟩
      apply (receive_readable_iff hlen hconn hq).mpr
      · have hstep := hfed
        simp only [Fed, hp] at hstep
        exact hstep
      · exact hcall.mp hmore
  | @submit ready i d header addr pool hp hpool =>
    rw [hp] at hslots
    exact vouched_plain trivial hslots
  | @discard ready i d hp =>
    rw [hp] at hslots
    exact vouched_plain trivial hslots
  | @clear ready i hp =>
    rw [hp] at hslots
    apply vouched_plain (by trivial)
    intro ready' i' hu j d hij hd hready
    cases hu
    exact hslots _ _ rfl j d hij (of_cleared hd) hready
  | sweep hp hd => exact vouched_plain trivial nofun
  | shutdown hp => exact vouched_plain trivial nofun
  | stop hp => exact vouched_plain trivial nofun

omit [DecidableEq W] in
/-- Bytes that arrive and a hang-up leave a readable socket readable. -/
theorem vouched_environment {sockets : ℕ → Socket} (h : Vouched s) (running : Bool)
    (connected : ℕ) (hsock : ∀ c, (s.sockets c).Readable → (sockets c).Readable) :
    Vouched { s with running := running, sockets := sockets, connected := connected } :=
  h.frame rfl rfl fun _ d _ _ hread => hsock d.token hread

theorem vouched_step [Fintype W] [Nonempty W] {root : Bytes} {a : Label W}
    (hi : Handover.Inv s) (h : Vouched s) (hfed : Fed s a) (hstep : next root s a = some s') :
    Vouched s' := by
  cases a with
  | connect =>
    cases hstep
    exact vouched_environment h s.running _ fun _ => id
  | arrive c bytes =>
    obtain ⟨-, hs⟩ := Option.ite_none_right_eq_some.mp hstep
    cases hs
    apply vouched_environment h s.running s.connected
    intro c' hread
    by_cases hc : c' = c
    · subst hc
      rw [Function.update_self]
      refine hread.imp_left fun hne hnil => hne ?_
      exact (List.append_eq_nil_iff.mp hnil).1
    · rwa [Function.update_of_ne hc]
  | hangup c =>
    obtain ⟨-, hs⟩ := Option.ite_none_right_eq_some.mp hstep
    cases hs
    apply vouched_environment h s.running s.connected
    intro c' hread
    by_cases hc : c' = c
    · subst hc
      rw [Function.update_self]
      exact Or.inr rfl
    · rwa [Function.update_of_ne hc]
  | interrupt =>
    cases hstep
    exact vouched_environment h false s.connected fun _ => id
  | loop choice => exact vouched_loop hi h hfed (loop_cases hstep)
  | test w =>
    obtain ⟨pool, -, rfl⟩ := Option.map_eq_some_iff.mp hstep
    exact h.frame rfl rfl fun _ _ _ _ hread => hread
  | wake w =>
    obtain ⟨pool, -, rfl⟩ := Option.map_eq_some_iff.mp hstep
    exact h.frame rfl rfl fun _ _ _ _ hread => hread
  | call w t reply =>
    change workerCall s w t reply = some s' at hstep
    unfold workerCall at hstep
    split at hstep
    · next a ticket e k hbusy hwork =>
      obtain ⟨q, hq, rfl⟩ := Option.map_eq_some_iff.mp hstep
      exact vouched_call hi h hbusy hwork hq
    · cases hstep
  | finish w =>
    simp only [next] at hstep
    split at hstep
    · obtain ⟨pool, -, rfl⟩ := Option.map_eq_some_iff.mp hstep
      exact h.frame rfl rfl fun _ _ _ _ hread => hread
    · cases hstep

theorem neverWaits_of_vouched (hi : Handover.Inv s) (h : Vouched s) : NeverWaits s := by
  intro ready i d fd len k hp
  obtain ⟨hcollects, hreadable⟩ := h.reading ready i d _ hp
  obtain ⟨rfl, -⟩ := collects_read hcollects
  exact ⟨d.token, live hi (reading_holder hp), hreadable ⟨_, _, rfl⟩⟩

/-- A read that leaves nothing for the next one makes the loop wait. -/
theorem fed_of_neverWaits [Fintype W] {c : Choice W} (hi : Handover.Inv s) (h : Vouched s)
    (hstep : loopNext s c = some s') (hs' : NeverWaits s') : Fed s (.loop c) := by
  unfold Fed
  dsimp only
  split
  · next ready i d fd len k hp =>
    obtain ⟨rfl, hlen, hnext⟩ := collects_read (h.reading ready i d _ hp).1
    have hconn := live hi (reading_holder (W := W) hp)
    simp only [loopNext, hp] at hstep
    obtain ⟨q, hq, rfl⟩ := Option.map_eq_some_iff.mp hstep
    apply (receive_readable_iff hlen hconn hq).mp
    intro hmore
    obtain ⟨hcollects, hcall⟩ := hnext q.1
    obtain ⟨len', f, heq⟩ := collects_call hcollects (hcall.mpr hmore)
    obtain ⟨token, htoken, hread⟩ := hs' ready i d d.num len' f (congrArg _ heq)
    obtain ⟨sockets, hs⟩ := receive_state hq
    have htable : q.2.table = s.table := by rw [hs]
    change q.2.table.get d.num = some (.conn token) at htoken
    rw [htable, hconn] at htoken
    cases htoken
    exact hread
  · trivial

/-- In a run in which every read of the loop finds what it has to find, the loop thread
never issues a read that has to wait; the first read that does not is followed by one
that waits. -/
theorem loop_never_waits_iff [Fintype W] [Nonempty W] {root : Bytes} {ls : List (Label W)}
    (h : Run (Where (Step root) fun s a _ => Fed s a) (start W) ls s) :
    NeverWaits s ∧ ∀ a s', next root s a = some s' → (NeverWaits s' ↔ Fed s a) := by
  have hinv : Handover.Inv s ∧ Vouched s := by
    apply h.invariant (I := fun s => Handover.Inv s ∧ Vouched s) ⟨start_inv, start_vouched⟩
    intro s a t hinv hstep
    exact ⟨Inv.step hinv.1 hstep.1, vouched_step hinv.1 hinv.2 hstep.2 hstep.1⟩
  obtain ⟨hi, hvouched⟩ := hinv
  refine ⟨neverWaits_of_vouched hi hvouched, fun a s' hstep => ⟨fun hs' => ?_, fun hfed => ?_⟩⟩
  · cases a with
    | loop c => exact fed_of_neverWaits hi hvouched hstep hs'
    | _ => trivial
  · exact neverWaits_of_vouched (Inv.step hi hstep) (vouched_step hi hvouched hfed hstep)

end Steps

instance {W : Type} (s : State W) (a : Label W) : Decidable (Fed s a) := by
  unfold Fed
  split
  · split <;> infer_instance
  · infer_instance

theorem loop_never_waits_accepted :
    ∃ s, follow (next []) (start Unit) (arrival Unit) = some s ∧ s.accepted = 1 ∧
      NeverWaits s ∧ ∀ a s', next [] s a = some s' → (NeverWaits s' ↔ Fed s a) := by
  have hrun : (follow (guarded (next []) Fed) (start Unit) (arrival Unit)).map State.accepted =
      some 1 := by decide +kernel
  obtain ⟨s, hs, haccepted⟩ := Option.map_eq_some_iff.mp hrun
  exact ⟨s, follow_of_guarded hs, haccepted, loop_never_waits_iff (run_of_guarded hs)⟩

/-- The read that the loop is about to issue is on an empty socket. -/
def isWaiting (s : State Unit) : Bool :=
  match s.point with
  | .read _ _ _ (.call (.sockRead fd _) _) =>
    match s.table.get fd with
    | some (.conn c) => !decide (s.sockets c).Readable
    | _ => true
  | _ => false

theorem not_neverWaits {s : State Unit} (h : isWaiting s = true) : ¬ NeverWaits s := by
  intro hnever
  unfold isWaiting at h
  split at h
  · next hp =>
    obtain ⟨c, hc, hread⟩ := hnever _ _ _ _ _ _ hp
    rw [hc] at h
    dsimp only at h
    rw [decide_eq_true hread] at h
    cases h
  · cases h

/-- A client sends the first byte of its header. -/
def firstByte : List (Label Unit) := .arrive 0 [0xAE] :: loops Unit 6

theorem split_header_waits :
    ∃ ls s, Run (Step []) (start Unit) ls s ∧ ¬ NeverWaits s := by
  have hrun : (follow (next []) (idle Unit 1) firstByte).map isWaiting = some true := by
    decide +kernel
  obtain ⟨s, hs, hwaiting⟩ := Option.map_eq_some_iff.mp hrun
  have hidle : Run (Step []) (start Unit) (arrivals Unit 1) (idle Unit 1) :=
    arrivals_run (by omega)
  exact ⟨_, s, hidle.append (run_of_follow hs), not_neverWaits hwaiting⟩

end NervFS.LoopReads
