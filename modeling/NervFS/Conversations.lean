import NervFS.LoopReads

/-!
What a worker serves is what its client has sent. The header is read by the accept loop
and the payload by a worker, through a descriptor that moves from a slot to the loop, the
queue and the worker in between. Whoever has it at the time has taken the first bytes of
the connection, and the rest is still in the socket.
-/
namespace NervFS.Conversations

open Programs Transitions DescriptorTable Calls Protocol FileOps Handlers SelectLoop
open JobDescriptors Connections Handover OneOwner LoopReads
open Ledger (Handle)
open ThreadPool (Job Phase processJob)

/-- The first bytes of a connection, with the header that they are. -/
def Heads (got : Bytes) (header : Header) : Prop :=
  got.length = nervfsHeaderSize ∧ parseHeader got = some header

/-- The bytes that a call takes from a socket. -/
def gained : (e : Call) → Reply e → Bytes
  | .sockRead _ _, some chunk => chunk.val
  | _, _ => []

/-- The rest of `handle_client_readable` after it has taken the bytes `got`. -/
inductive Reading (fd : ℕ) : Bytes → Prog (Option Header) → Prop
  | more {got : Bytes} {rounds : ℕ} (hgot : got.length ≤ nervfsHeaderSize)
    (hrounds : nervfsHeaderSize ≤ got.length + rounds) :
    Reading fd got (recvLoop fd nervfsHeaderSize rounds got >>= headerOf)
  | found {got : Bytes} {header : Header} (h : Heads got header) :
    Reading fd got (.ret (some header))
  | refused {got : Bytes} : Reading fd got (.ret none)

theorem handleClientReadable_reading (fd : ℕ) : Reading fd [] (handleClientReadable fd) := by
  rw [handleClientReadable_eq]
  exact .more (Nat.zero_le _) (Nat.le_add_left ..)

theorem headerOf_reading {fd : ℕ} {got : Bytes} (hgot : got.length ≤ nervfsHeaderSize) :
    Reading fd got (headerOf (some got)) := by
  unfold headerOf
  dsimp only
  split
  · exact .refused
  · next hfull =>
    cases hparse : parseHeader got with
    | none => exact .refused
    | some header => exact .found ⟨le_antisymm hgot (not_lt.mp hfull), hparse⟩

theorem Reading.read {fd fd' len : ℕ} {got : Bytes}
    {k : Reply (.sockRead fd' len) → Prog (Option Header)}
    (h : Reading fd got (.call (.sockRead fd' len) k)) (r : Reply (.sockRead fd' len)) :
    fd' = fd ∧ Reading fd (got ++ gained (.sockRead fd' len) r) (k r) := by
  generalize hp : (Program.call (Call.sockRead fd' len) k : Prog (Option Header)) = p at h
  cases h with
  | found h => cases hp
  | refused => cases hp
  | @more rounds hgot hrounds =>
    by_cases hfull : nervfsHeaderSize ≤ got.length
    · rw [recvLoop_done hfull, Program.ret_bind] at hp
      obtain ⟨header, hret⟩ := headerOf_ret (some got)
      rw [hret] at hp
      cases hp
    · obtain ⟨rounds, rfl⟩ : ∃ n, rounds = n + 1 := Nat.exists_eq_succ_of_ne_zero (by omega)
      rw [recvLoop_more (not_le.mp hfull), Program.call_bind] at hp
      cases hp
      refine ⟨rfl, ?_⟩
      cases r with
      | none => exact .refused
      | some chunk =>
        have hchunk := chunk.property
        change Reading fd (got ++ chunk.val)
          ((if chunk.val = [] then _ else _ : Prog _) >>= headerOf)
        by_cases hnil : chunk.val = []
        · rw [if_pos hnil, Program.ret_bind, hnil, List.append_nil]
          exact headerOf_reading hgot
        · have hpos := List.length_pos_iff.mpr hnil
          rw [if_neg hnil]
          refine .more ?_ ?_
          · rw [List.length_append]
            omega
          · rw [List.length_append]
            omega

/-- The header that the loop found is that of the bytes it has taken. -/
theorem Reading.heads {fd : ℕ} {got : Bytes} {header : Header}
    (h : Reading fd got (.ret (some header))) : Heads got header := by
  generalize hp : (Program.ret (some header) : Prog (Option Header)) = p at h
  cases h with
  | refused => cases hp
  | found hheads =>
    cases hp
    exact hheads
  | @more rounds hgot hrounds =>
    by_cases hfull : nervfsHeaderSize ≤ got.length
    · rw [recvLoop_done hfull, Program.ret_bind, headerOf, if_neg (not_lt.mpr hfull)] at hp
      exact ⟨le_antisymm hgot hfull, (Program.ret.inj hp).symm⟩
    · obtain ⟨rounds, rfl⟩ : ∃ n, rounds = n + 1 := Nat.exists_eq_succ_of_ne_zero (by omega)
      rw [recvLoop_more (not_le.mp hfull), Program.call_bind] at hp
      cases hp

/-- The request of a job with its payload, and the end of `process_job`. -/
def answer (root : Bytes) (job : Job) (netStart : Timespec) (payload : Bytes) : Prog Unit :=
  dispatchRequestTimed root job.clientFd job.header payload netStart >>= fun _ =>
    sockClose job.clientFd

/-- What `process_job` does with what it received. -/
def received (root : Bytes) (job : Job) (netStart : Timespec) : Option Bytes → Prog Unit
  | none => sockClose job.clientFd
  | some got =>
    if got.length < job.header.payloadLen.toNat then sockClose job.clientFd
    else answer root job netStart got

/-- `process_job` between its first call and its receive. -/
def allocated (root : Bytes) (job : Job) (netStart : Timespec) (got : Bool) : Prog Unit :=
  if got then
    recvFull job.clientFd job.header.payloadLen.toNat >>= received root job netStart
  else sockClose job.clientFd

theorem processJob_eq (root : Bytes) (job : Job) :
    processJob root job = clockGettime >>= fun netStart =>
      if 0 < job.header.payloadLen then
        malloc job.header.payloadLen.toNat >>= allocated root job netStart
      else answer root job netStart [] := by
  unfold processJob
  congr 1

/-- The rest of `process_job` up to the dispatch, or to the close without one, after it has
taken the bytes `got` of the payload. -/
inductive Serving (root : Bytes) (job : Job) : Bytes → Prog Unit → Prop
  | start : Serving root job [] (processJob root job)
  | allocating {netStart : Timespec} :
    Serving root job [] (malloc job.header.payloadLen.toNat >>= allocated root job netStart)
  | receiving {netStart : Timespec} {got : Bytes} {rounds : ℕ}
    (hgot : got.length ≤ job.header.payloadLen.toNat)
    (hrounds : job.header.payloadLen.toNat ≤ got.length + rounds) :
    Serving root job got (recvLoop job.clientFd job.header.payloadLen.toNat rounds got >>=
      received root job netStart)
  | answering {netStart : Timespec} {payload : Bytes}
    (h : payload.length = job.header.payloadLen.toNat) :
    Serving root job payload (answer root job netStart payload)
  | closing {got : Bytes} : Serving root job got (sockClose job.clientFd)
  | ended {got : Bytes} : Serving root job got (.ret ())

section Serving
variable {root : Bytes} {job : Job} {got : Bytes}

/-- Neither an answer nor the dispatch of a request. -/
def Preparatory (e : Call) : Prop :=
  (∀ fd buf, e ≠ .sockWrite fd buf) ∧ ∀ opcode, e ≠ .dispatch opcode

theorem received_serving {netStart : Timespec} (h : got.length ≤ job.header.payloadLen.toNat) :
    Serving root job got (received root job netStart (some got)) := by
  unfold received
  dsimp only
  split
  · exact .closing
  · next hfull => exact .answering (le_antisymm h (not_lt.mp hfull))

/-- What `process_job` does next: it serves the payload that it has taken, or prepares for
it and adds what it reads. -/
def Proceeds (root : Bytes) (job : Job) (got : Bytes) (e : Call) (k : Reply e → Prog Unit) :
    Prop :=
  (got.length = job.header.payloadLen.toNat ∧
    ∃ netStart, Program.call e k = answer root job netStart got) ∨
  (Preparatory e ∧ ∀ r, Serving root job (got ++ gained e r) (k r))

theorem closing_proceeds {e : Call} {k : Reply e → Prog Unit}
    (h : Program.call e k = sockClose job.clientFd) : Proceeds root job got e k := by
  cases h
  exact Or.inr ⟨⟨nofun, nofun⟩, fun _ => .ended⟩

theorem received_proceeds {e : Call} {k : Reply e → Prog Unit} {netStart : Timespec}
    (hgot : got.length ≤ job.header.payloadLen.toNat)
    (h : Program.call e k = received root job netStart (some got)) :
    Proceeds root job got e k := by
  unfold received at h
  dsimp only at h
  split at h
  · exact closing_proceeds h
  · next hfull => exact Or.inl ⟨le_antisymm hgot (not_lt.mp hfull), netStart, h⟩

theorem Serving.proceeds {e : Call} {k : Reply e → Prog Unit}
    (h : Serving root job got (.call e k)) : Proceeds root job got e k := by
  generalize hp : (Program.call e k : Prog Unit) = p at h
  cases h with
  | ended => cases hp
  | closing => exact closing_proceeds hp
  | answering hfull => exact Or.inl ⟨hfull, _, hp⟩
  | start =>
    rw [processJob_eq] at hp
    cases hp
    refine Or.inr ⟨⟨nofun, nofun⟩, fun netStart => ?_⟩
    change Serving root job [] (if _ then _ else _)
    split
    · exact .allocating
    · next hzero =>
      rw [UInt32.lt_iff_toNat_lt] at hzero
      exact .answering (Nat.eq_zero_of_not_pos hzero).symm
  | allocating =>
    cases hp
    refine Or.inr ⟨⟨nofun, nofun⟩, fun r => ?_⟩
    cases r with
    | false => exact .closing
    | true => exact .receiving (Nat.zero_le _) (Nat.le_add_left ..)
  | @receiving netStart _ rounds hgot hrounds =>
    by_cases hfull : job.header.payloadLen.toNat ≤ got.length
    · rw [recvLoop_done hfull, Program.ret_bind] at hp
      exact received_proceeds hgot hp
    · obtain ⟨rounds, rfl⟩ : ∃ n, rounds = n + 1 := Nat.exists_eq_succ_of_ne_zero (by omega)
      rw [recvLoop_more (not_le.mp hfull), Program.call_bind] at hp
      cases hp
      refine Or.inr ⟨⟨nofun, nofun⟩, fun r => ?_⟩
      cases r with
      | none => exact .closing
      | some chunk =>
        have hchunk := chunk.property
        change Serving root job (got ++ chunk.val)
          ((if chunk.val = [] then _ else _ : Prog _) >>= received root job netStart)
        by_cases hnil : chunk.val = []
        · rw [if_pos hnil, Program.ret_bind, hnil, List.append_nil]
          exact received_serving hgot
        · have hpos := List.length_pos_iff.mpr hnil
          rw [if_neg hnil]
          refine .receiving ?_ ?_
          · rw [List.length_append]
            omega
          · rw [List.length_append]
            omega

end Serving

section Streams
variable {W : Type}

/-- What a step adds to what a client has sent. -/
def brought (c : ℕ) : Label W → Bytes
  | .arrive c' bytes => if c' = c then bytes else []
  | _ => []

/-- What a client has sent in a run. -/
def sentBy (c : ℕ) (ls : List (Label W)) : Bytes := ls.flatMap (brought c)

theorem sentBy_snoc (c : ℕ) (ls : List (Label W)) (a : Label W) :
    sentBy c (ls ++ [a]) = sentBy c ls ++ brought c a := by
  simp only [sentBy, List.flatMap_append, List.flatMap_singleton]

/-- The bytes `got` have been taken from a connection, and no others. -/
def Drawn (ls : List (Label W)) (s : State W) (c : ℕ) (got : Bytes) : Prop :=
  sentBy c ls = got ++ (s.sockets c).buffered

theorem receive_buffered {s : State W} {fd len c : ℕ} {t : Kernel.Transfer} {q}
    (hc : s.table.get fd = some (.conn c)) (h : s.receive fd len t = some q) :
    (s.sockets c).buffered = gained (.sockRead fd len) q.1 ++ (q.2.sockets c).buffered := by
  unfold State.receive at h
  rw [hc] at h
  split at h
  · cases h
    rfl
  · next heq =>
    cases heq
    split at h
    · split at h
      · cases h
        rfl
      · cases h
    · cases h
      dsimp only [gained]
      rw [Function.update_self]
      exact (List.take_append_drop ..).symm
  · cases h
    rfl

/-- A whole request at the front of what a client has sent. -/
def Begins (sent : Bytes) (header : Header) (payload : Bytes) : Prop :=
  ∃ head rest, sent = head ++ payload ++ rest ∧ Heads head header ∧
    payload.length = header.payloadLen.toNat

theorem Begins.append {sent payload : Bytes} {header : Header} (h : Begins sent header payload)
    (more : Bytes) : Begins (sent ++ more) header payload := by
  obtain ⟨head, rest, rfl, hhead, hlen⟩ := h
  exact ⟨head, rest ++ more, List.append_assoc .., hhead, hlen⟩

end Streams

section Invariant
variable {W : Type}

/-- The connection that somebody reads from; a worker may have closed it since. -/
def reader (s : State W) : Owner W → Option Handle
  | .worker w => client s w
  | o => holder s o

/-- What the loop has taken from the descriptor that it has in process. -/
def Collected (d : Handle) (got : Bytes) : Point → Prop
  | .place _ _ | .reject _ _ => got = []
  | .read _ _ _ p => Reading d.num got p
  | .submit _ _ _ header => Heads got header
  | _ => True

/-- What the owner of a descriptor has taken from its connection. -/
def Draws (root : Bytes) (s : State W) (d : Handle) (got : Bytes) : Owner W → Prop
  | .slot _ => got = []
  | .loop => Collected d got s.point
  | .job t => ∃ job, s.pool.submitted[t]? = some job ∧ Heads got job.header
  | .worker w => d.token ∈ s.dispatched ∨ ∃ job head payload, got = head ++ payload ∧
      job.clientFd = d.num ∧ Heads head job.header ∧ Serving root job payload (s.work w)

/-- Every connection has been read as far as its owner says, and every dispatched request
had arrived as a whole. -/
structure Faithful (root : Bytes) (ls : List (Label W)) (s : State W) : Prop where
  owners : ∀ o d, reader s o = some d → ∃ got, Drawn ls s d.token got ∧ Draws root s d got o
  fresh : ∀ c, s.accepted ≤ c → Drawn ls s c []
  past : ∀ c ∈ s.dispatched, ∃ header payload, Begins (sentBy c ls) header payload

variable {root : Bytes} {ls : List (Label W)} {s s' : State W} {a : Label W}

theorem start_faithful (root : Bytes) : Faithful root [] (start W) where
  owners o d ho := by cases o <;> cases ho
  fresh _ _ := rfl
  past := nofun

theorem Faithful.keeps (h : Faithful root ls s)
    (hsock : ∀ c, (s'.sockets c).buffered = (s.sockets c).buffered ++ brought c a)
    (howner : ∀ o d, reader s' o = some d →
      (∃ o', reader s o' = some d ∧ ∀ got, Draws root s d got o' → Draws root s' d got o) ∨
      s.accepted ≤ d.token ∧ Draws root s' d [] o)
    (haccepted : s.accepted ≤ s'.accepted) (hdispatched : s'.dispatched = s.dispatched) :
    Faithful root (ls ++ [a]) s' := by
  have hdrawn : ∀ c got, Drawn ls s c got → Drawn (ls ++ [a]) s' c got := by
    intro c got hgot
    unfold Drawn at hgot ⊢
    rw [sentBy_snoc, hgot, hsock, List.append_assoc]
  refine ⟨fun o d ho => ?_, fun c hc => hdrawn c [] (h.fresh c (haccepted.trans hc)),
    fun c hc => ?_⟩
  · rcases howner o d ho with ⟨o', ho', hdraws⟩ | ⟨hnew, hdraws⟩
    · obtain ⟨got, hgot, hold⟩ := h.owners o' d ho'
      exact ⟨got, hdrawn _ _ hgot, hdraws got hold⟩
    · exact ⟨[], hdrawn _ _ (h.fresh _ hnew), hdraws⟩
  · obtain ⟨header, payload, hbegins⟩ := h.past c (hdispatched ▸ hc)
    rw [sentBy_snoc]
    exact ⟨header, payload, hbegins.append _⟩

/-- What a queued job or a worker has taken does not depend on the loop. -/
theorem Draws.of_eq {d : Handle} {got : Bytes} {o : Owner W} (h : Draws root s d got o)
    (ho : o ≠ .loop) (hsubmitted : s'.pool.submitted = s.pool.submitted)
    (hdispatched : s'.dispatched = s.dispatched)
    (hwork : ∀ w, o = .worker w → s'.work w = s.work w) :
    Draws root s' d got o := by
  cases o with
  | slot i => exact h
  | loop => exact absurd rfl ho
  | job t =>
    simp only [Draws] at h ⊢
    rw [hsubmitted]
    exact h
  | worker w =>
    simp only [Draws] at h ⊢
    rw [hdispatched, hwork w rfl]
    exact h

/-- The moves of the loop between two points keep what it has collected. -/
theorem goes_collected {p q : Point} {d : Handle} {got : Bytes} (hg : Goes s p q)
    (hd : pending q = some d) (h : Collected d got p) : Collected d got q := by
  cases hg with
  | full hfull => exact h
  | bad => trivial
  | header =>
    exact Reading.heads h
  | noMemory => trivial
  | _ => cases hd

/-- A step of the loop that neither reads nor hands a descriptor over. -/
theorem Faithful.loop_keeps {c : Choice W} (h : Faithful root ls s)
    (hsockets : s'.sockets = s.sockets) (hwork : s'.work = s.work)
    (hsubmitted : s'.pool.submitted = s.pool.submitted) (hdispatched : s'.dispatched = s.dispatched)
    (haccepted : s.accepted ≤ s'.accepted)
    (hworker : ∀ w d, client s' w = some d → client s w = some d)
    (hjob : ∀ t d, holder s' (.job t) = some d → holder s (.job t) = some d)
    (hslot : ∀ i d, holder s' (.slot i) = some d → holder s (.slot i) = some d ∨
      holder s .loop = some d ∧ ∀ got, Collected d got s.point → got = [])
    (hloop : ∀ d, holder s' .loop = some d →
      (∃ o, reader s o = some d ∧ ∀ got, Draws root s d got o → Collected d got s'.point) ∨
      s.accepted ≤ d.token ∧ Collected d [] s'.point) :
    Faithful root (ls ++ [.loop c]) s' := by
  refine h.keeps (fun _ => ?_) (fun o d ho => ?_) haccepted hdispatched
  · rw [hsockets]
    exact (List.append_nil _).symm
  · cases o with
    | slot i =>
      rcases hslot i d ho with hold | ⟨hold, hnone⟩
      · exact Or.inl ⟨.slot i, hold, fun _ hgot => hgot⟩
      · exact Or.inl ⟨.loop, hold, hnone⟩
    | loop => exact hloop d ho
    | job t =>
      refine Or.inl ⟨.job t, hjob t d ho, fun got hgot => ?_⟩
      exact hgot.of_eq (fun h => by cases h) hsubmitted hdispatched fun w _ => by rw [hwork]
    | worker w =>
      refine Or.inl ⟨.worker w, hworker w d ho, fun got hgot => ?_⟩
      exact hgot.of_eq (fun h => by cases h) hsubmitted hdispatched fun w _ => by rw [hwork]

/-- The loop hands its descriptor over with the header that it has read. -/
theorem Faithful.submit [DecidableEq W] [Fintype W] {c : Choice W} {pool : ThreadPool.State W}
    {ready : List ℕ} {i addr : ℕ} {d : Handle} {header : Header} {signalled : List W}
    (hi : Handover.Inv s) (h : Faithful root ls s) (hp : s.point = .submit ready i d header)
    (hpool : ThreadPool.threadpoolSubmit s.pool ⟨d.num, header⟩ (some addr) signalled =
      some pool) :
    Faithful root (ls ++ [.loop c])
      { s with pool := pool, handed := s.handed ++ [d], point := .clear ready i } := by
  obtain ⟨hworker, htaken, -, hsubmitted, -⟩ := submit_effect hpool
  have hledger := ledger_submit hi.jobs hp hworker htaken
  have hlen := hi.jobs.length_eq
  refine h.keeps (fun _ => (List.append_nil _).symm) (fun o e ho => Or.inl ?_) le_rfl rfl
  by_cases hw : ∃ w, o = .worker w
  · obtain ⟨w, rfl⟩ := hw
    refine ⟨.worker w, (client_iff (hworker w) fun a t hw => ?_).mp ho, fun _ => id⟩
    exact List.getElem?_append_left (lt_of_lt_of_le (hi.jobs.busy_lt hw) hi.jobs.taken_le)
  · have hholder : ∀ s : State W, reader s o = holder s o := by
      intro s
      cases o with
      | worker w => exact absurd ⟨w, rfl⟩ hw
      | _ => rfl
    have hpass : Function.update (Function.update (holder s) .loop none) (.job s.handed.length)
        (some d) o = some e := by
      rw [← ho, hholder]
      exact (congrFun (congrArg Ledger.State.holder hledger) o).symm
    rcases update_eq_iff.mp hpass with ⟨rfl, heq⟩ | ⟨-, hpass⟩
    · cases heq
      have hloop : holder s .loop = some d := by simp [holder, pending, hp]
      refine ⟨.loop, hloop, fun got hgot => ⟨⟨d.num, header⟩, ?_, ?_⟩⟩
      · change pool.submitted[s.handed.length]? = _
        rw [hsubmitted, hlen, List.getElem?_concat_length]
      · simp only [Draws, hp] at hgot
        exact hgot
    · rcases update_eq_iff.mp hpass with ⟨-, heq⟩ | ⟨hne, hold⟩
      · cases heq
      · refine ⟨o, (hholder s).trans hold, fun got hgot => ?_⟩
        cases o with
        | loop => exact absurd rfl hne
        | job t =>
          obtain ⟨job, hjob, hheads⟩ := hgot
          refine ⟨job, ?_, hheads⟩
          change pool.submitted[t]? = _
          rw [hsubmitted, List.getElem?_append_left (List.getElem?_eq_some_iff.mp hjob).1]
          exact hjob
        | _ => exact hgot

/-- The steps of the loop, but for its reads. -/
theorem Faithful.loop [DecidableEq W] [Fintype W] {c : Choice W} (hi : Handover.Inv s)
    (h : Faithful root ls s) (hstep : LoopStep s c s')
    (hreads : ∀ ready i d e k, s.point ≠ .read ready i d (.call e k)) :
    Faithful root (ls ++ [.loop c]) s' := by
  cases hstep with
  | @go p hg =>
    obtain ⟨hcurrent, hpending⟩ := goes_current hg
    refine h.loop_keeps rfl rfl rfl rfl le_rfl (fun _ _ => id) (fun _ _ => id)
      (fun i d hd => Or.inl ?_) fun d hd => Or.inl ⟨.loop, ?_, fun got => goes_collected hg hd⟩
    · simpa only [holder, hcurrent] using hd
    · change holder s .loop = some d
      simpa only [holder, hpending] using hd
  | @accept ready hp =>
    refine h.loop_keeps rfl rfl rfl rfl (Nat.le_succ _) (fun _ _ => id) (fun _ _ => id)
      (fun i d hd => Or.inl ?_) fun d hd => Or.inr ?_
    · simpa [holder, current, hp] using hd
    · cases hd
      exact ⟨le_rfl, rfl⟩
  | @place ready d slot hp hslot =>
    refine h.loop_keeps rfl rfl rfl rfl le_rfl (fun _ _ => id) (fun _ _ => id)
      (fun i e he => ?_) fun e he => by cases he
    have hset : Function.update s.clientFds slot (some d) i = some e := by
      simpa [holder, current] using he
    rcases update_eq_iff.mp hset with ⟨rfl, heq⟩ | ⟨-, hold⟩
    · cases heq
      refine Or.inr ⟨by simp [holder, pending, hp], fun got hgot => ?_⟩
      rw [hp] at hgot
      exact hgot
    · exact Or.inl (by simpa [holder, current, hp] using hold)
  | @reject ready d hp =>
    refine h.loop_keeps rfl rfl rfl rfl le_rfl (fun _ _ => id) (fun _ _ => id)
      (fun i e he => Or.inl ?_) fun e he => by cases he
    simpa [holder, current, hp, State.close] using he
  | @pick ready i d hp hlt hd hready =>
    refine h.loop_keeps rfl rfl rfl rfl le_rfl (fun _ _ => id) (fun _ _ => id)
      (fun j e he => Or.inl ?_) fun e he => Or.inl ⟨.slot i, ?_, fun got hgot => ?_⟩
    · have hold : ¬ i = j ∧ s.clientFds j = some e := by simpa [holder, current] using he
      simpa [holder, current, hp] using hold.2
    · cases he
      change holder s (.slot i) = some d
      simpa [holder, current, hp] using hd
    · cases he
      obtain rfl : got = [] := hgot
      exact handleClientReadable_reading _
  | @receive ready i d fd len k q hp hq => exact absurd hp (hreads ready i d _ k)
  | @submit ready i d header addr pool hp hpool => exact h.submit hi hp hpool
  | @discard ready i d hp =>
    refine h.loop_keeps rfl rfl rfl rfl le_rfl (fun _ _ => id) (fun _ _ => id)
      (fun j e he => Or.inl ?_) fun e he => by cases he
    simpa [holder, current, hp, State.close] using he
  | @clear ready i hp =>
    refine h.loop_keeps rfl rfl rfl rfl le_rfl (fun _ _ => id) (fun _ _ => id)
      (fun j e he => Or.inl ?_) fun e he => by cases he
    have hledger := congrArg Ledger.State.holder (ledger_clear hp)
    exact (congrFun hledger (.slot j)).symm.trans he
  | @sweep i d hp hd =>
    refine h.loop_keeps rfl rfl rfl rfl le_rfl (fun _ _ => id) (fun _ _ => id)
      (fun j e he => Or.inl ?_) fun e he => by cases he
    have hset : Function.update s.clientFds i none j = some e := by
      simpa [holder, current] using he
    simpa [holder, current, hp] using of_cleared hset
  | shutdown hp =>
    refine h.loop_keeps rfl rfl rfl rfl le_rfl (fun w d => ?_) (fun _ _ => id)
      (fun j e he => Or.inl ?_) fun e he => by cases he
    · intro hd
      obtain ⟨a, t, hw, ht⟩ := busy_of_client hd
      have hold : s.pool.worker w = .busy a t := by
        change (if s.pool.worker w = .asleep then Phase.testing else s.pool.worker w) = _ at hw
        split at hw
        · cases hw
        · exact hw
      exact (client_busy hold).trans ht
    · simpa [holder, current, hp] using he
  | stop hp =>
    refine h.loop_keeps rfl rfl rfl rfl le_rfl (fun _ _ => id) (fun _ _ => id)
      (fun j e he => Or.inl ?_) fun e he => by cases he
    simpa [holder, current, hp, State.close] using he

section Readers
variable [DecidableEq W]

omit [DecidableEq W] in
theorem reader_of_ne {o : Owner W} (ho : ∀ w, o ≠ .worker w) : reader s o = holder s o := by
  cases o with
  | worker w => exact absurd rfl (ho w)
  | _ => rfl

theorem reader_exclusive (hi : Handover.Inv s) {o o' : Owner W} {d d' : Handle}
    (ho : reader s o = some d) (ho' : reader s o' = some d') (hne : o ≠ o') :
    d.token ≠ d'.token := by
  by_cases hw : ∃ w, o = .worker w
  · obtain ⟨w, rfl⟩ := hw
    by_cases hw' : ∃ w', o' = .worker w'
    · obtain ⟨w', rfl⟩ := hw'
      exact hi.jobs.client_ne (fun h => hne (congrArg _ h)) ho ho'
    · rw [reader_of_ne fun w' h => hw' ⟨w', h⟩] at ho'
      exact token_ne hi.ledger ho' (Ne.symm hne) ho
  · rw [reader_of_ne fun w h => hw ⟨w, h⟩] at ho
    by_cases hw' : ∃ w', o' = .worker w'
    · obtain ⟨w', rfl⟩ := hw'
      exact (token_ne hi.ledger ho hne ho').symm
    · rw [reader_of_ne fun w' h => hw' ⟨w', h⟩] at ho'
      exact fun heq => hne (hi.ledger.exclusive o o' d d' ho ho' heq)

theorem reader_accepted (hi : Handover.Inv s) {o : Owner W} {d : Handle}
    (ho : reader s o = some d) : d.token < s.accepted := by
  have hheld : ∀ o : Owner W, holder s o = some d → d.token < s.accepted :=
    fun o ho => (hi.ledger.fresh _ _ (hi.ledger.live o d ho)).1
  cases o with
  | worker w =>
    by_cases hclosed : d.token ∈ s.closed
    · exact hi.ledger.past _ hclosed
    · exact hheld (.worker w) (holder_worker.mpr ⟨ho, hclosed⟩)
  | slot i => exact hheld (.slot i) ho
  | loop => exact hheld .loop ho
  | job t => exact hheld (.job t) ho

theorem Faithful.reads (hi : Handover.Inv s) (h : Faithful root ls s) {o : Owner W} {d : Handle}
    (ho : reader s o = some d) (gain : Bytes) (hquiet : ∀ c, brought c a = [])
    (hother : ∀ c, c ≠ d.token → s'.sockets c = s.sockets c)
    (hown : (s.sockets d.token).buffered = gain ++ (s'.sockets d.token).buffered)
    (hreader : ∀ o', reader s' o' = reader s o')
    (hkeeps : ∀ o' e got, o' ≠ o → reader s o' = some e → Draws root s e got o' →
      Draws root s' e got o')
    (hdraws : ∀ got, Drawn ls s d.token got → Draws root s d got o →
      Draws root s' d (got ++ gain) o)
    (haccepted : s'.accepted = s.accepted)
    (hpast : ∀ c ∈ s'.dispatched, c ∈ s.dispatched ∨
      ∃ header payload, Begins (sentBy c ls) header payload) :
    Faithful root (ls ++ [a]) s' := by
  have hsent : ∀ c, sentBy c (ls ++ [a]) = sentBy c ls := by
    intro c
    rw [sentBy_snoc, hquiet, List.append_nil]
  have hdrawn : ∀ c got, c ≠ d.token → Drawn ls s c got → Drawn (ls ++ [a]) s' c got := by
    intro c got hne hgot
    unfold Drawn at hgot ⊢
    rw [hsent, hgot, hother c hne]
  refine ⟨fun o' e he => ?_, fun c hc => ?_, fun c hc => ?_⟩
  · rw [hreader] at he
    by_cases hoo : o' = o
    · subst hoo
      rw [ho] at he
      cases he
      obtain ⟨got, hgot, hold⟩ := h.owners o' d ho
      refine ⟨got ++ gain, ?_, hdraws got hgot hold⟩
      unfold Drawn at hgot ⊢
      rw [hsent, hgot, hown, List.append_assoc]
    · obtain ⟨got, hgot, hold⟩ := h.owners o' e he
      have hne : e.token ≠ d.token := reader_exclusive hi he ho hoo
      exact ⟨got, hdrawn _ _ hne hgot, hkeeps o' e got hoo he hold⟩
  · have hlt := reader_accepted hi ho
    rw [haccepted] at hc
    exact hdrawn c [] (Nat.ne_of_gt (lt_of_lt_of_le hlt hc)) (h.fresh c hc)
  · rw [hsent]
    rcases hpast c hc with hold | hnew
    · exact h.past c hold
    · exact hnew

theorem Faithful.receive [Fintype W] {c : Choice W} {ready : List ℕ} {i fd len : ℕ} {d : Handle}
    {k : Reply (.sockRead fd len) → Prog (Option Header)} {q} (hi : Handover.Inv s)
    (h : Faithful root ls s) (hp : s.point = .read ready i d (.call (.sockRead fd len) k))
    (hq : s.receive fd len c.transfer = some q) :
    Faithful root (ls ++ [.loop c]) { q.2 with point := .read ready i d (k q.1) } := by
  have hloop : holder s (.loop : Owner W) = some d := reading_holder hp
  have hconn := live hi hloop
  obtain ⟨got₀, -, hreading⟩ := h.owners .loop d hloop
  simp only [Draws, hp] at hreading
  obtain ⟨rfl, -⟩ := Reading.read hreading q.1
  obtain ⟨sockets, hs⟩ := receive_state hq
  refine h.reads hi (o := .loop) hloop (gained (.sockRead d.num len) q.1) (fun _ => rfl)
    (fun c hne => receive_other hconn hq hne) (receive_buffered hconn hq) (fun o => ?_)
    (fun o e got ho _ hdraws => ?_) (fun got _ hdraws => ?_) (by rw [hs]) fun c hc => Or.inl ?_
  · rw [hs]
    cases o with
    | slot j => simp [reader, holder, current, hp]
    | loop => simp [reader, holder, pending, hp]
    | _ => rfl
  · refine hdraws.of_eq ho ?_ ?_ fun w _ => ?_
    all_goals rw [hs]
  · simp only [Draws, hp] at hdraws
    exact (Reading.read hdraws q.1).2
  · rw [hs] at hc
    exact hc

omit [DecidableEq W] in
/-- A call of a worker changes neither who owns what nor the jobs. -/
theorem perform_aside {w : W} {ticket : ℕ} {t : Kernel.Transfer} {reply : (e : Call) → Reply e}
    {e : Call} {q} (h : s.perform w ticket t reply e = some q) :
    Aside s q.2 ∧ q.2.work = s.work ∧
      ((∀ opcode, e ≠ .dispatch opcode) → q.2.dispatched = s.dispatched) := by
  cases e with
  | sockRead fd len =>
    obtain ⟨sockets, hs⟩ := receive_state h
    rw [hs]
    exact ⟨⟨rfl, rfl, rfl, rfl, rfl⟩, rfl, fun _ => rfl⟩
  | openWrite path =>
    simp only [State.perform] at h
    split at h <;> (cases h; exact ⟨⟨rfl, rfl, rfl, rfl, rfl⟩, rfl, fun _ => rfl⟩)
  | openRead path =>
    simp only [State.perform] at h
    split at h <;> (cases h; exact ⟨⟨rfl, rfl, rfl, rfl, rfl⟩, rfl, fun _ => rfl⟩)
  | opendir =>
    simp only [State.perform] at h
    split at h <;> (cases h; exact ⟨⟨rfl, rfl, rfl, rfl, rfl⟩, rfl, fun _ => rfl⟩)
  | dispatch opcode =>
    cases h
    exact ⟨⟨rfl, rfl, rfl, rfl, rfl⟩, rfl, fun hno => absurd rfl (hno opcode)⟩
  | _ =>
    cases h
    exact ⟨⟨rfl, rfl, rfl, rfl, rfl⟩, rfl, fun _ => rfl⟩

/-- What a call of a worker takes from its own connection, and from no other. -/
theorem perform_buffered {w : W} {ticket : ℕ} {d : Handle} {t : Kernel.Transfer}
    {reply : (e : Call) → Reply e} {e : Call} {k : Reply e → Prog Unit} {q}
    (hi : Handover.Inv s) (hd : client s w = some d) (hwork : s.work w = .call e k)
    (hq : s.perform w ticket t reply e = some q) :
    (∀ c, c ≠ d.token → q.2.sockets c = s.sockets c) ∧
      (s.sockets d.token).buffered = gained e q.1 ++ (q.2.sockets d.token).buffered := by
  by_cases hsock : ∃ fd len, e = .sockRead fd len
  · obtain ⟨fd, len, rfl⟩ := hsock
    have huse : (fd, Object.conn d.token) ∈ uses s (.call w t reply) := by
      simp only [uses, hd, hwork, List.mem_singleton]
    have hconn := call_uses hi huse
    exact ⟨fun c hne => receive_other hconn hq hne, receive_buffered hconn hq⟩
  · have hsockets := (perform_frame hq).2.2 fun fd len he => hsock ⟨fd, len, he⟩
    have hgain : gained e q.1 = [] := by
      cases e with
      | sockRead fd len => exact absurd ⟨fd, len, rfl⟩ hsock
      | _ => rfl
    rw [hsockets, hgain]
    exact ⟨fun _ _ => rfl, rfl⟩

/-- A worker makes a call of its job. -/
theorem Faithful.call {w : W} {addr ticket : ℕ} {t : Kernel.Transfer}
    {reply : (e : Call) → Reply e} {e : Call} {k : Reply e → Prog Unit} {q}
    (hi : Handover.Inv s) (h : Faithful root ls s) (hbusy : s.pool.worker w = .busy addr ticket)
    (hwork : s.work w = .call e k) (hq : s.perform w ticket t reply e = some q) :
    Faithful root (ls ++ [.call w t reply])
      { q.2 with work := Function.update q.2.work w (k q.1) } := by
  obtain ⟨d, held, hd, -⟩ := (hi.working w).busy addr ticket hbusy
  have hclient : client s w = some d := (client_busy hbusy).trans hd
  obtain ⟨haside, hworks, hdispatched⟩ := perform_aside hq
  obtain ⟨hother, hown⟩ := perform_buffered hi hclient hwork hq
  have hstays : ∀ c ∈ s.dispatched, c ∈ q.2.dispatched := by
    by_cases hdis : ∃ opcode, e = .dispatch opcode
    · obtain ⟨opcode, rfl⟩ := hdis
      cases hq
      exact fun c hc => List.mem_append_left _ hc
    · rw [hdispatched fun opcode he => hdis ⟨opcode, he⟩]
      exact fun _ => id
  have hstage : ∀ got, Drawn ls s d.token got → Draws root s d got (.worker w) →
      d.token ∈ s.dispatched ∨ ∃ job head payload, got = head ++ payload ∧
        job.clientFd = d.num ∧ Heads head job.header ∧ Proceeds root job payload e k := by
    intro got _ hdraws
    refine hdraws.imp_right ?_
    rintro ⟨job, head, payload, hgot, hnum, hheads, hserving⟩
    rw [hwork] at hserving
    exact ⟨job, head, payload, hgot, hnum, hheads, hserving.proceeds⟩
  refine h.reads hi (o := .worker w) hclient (gained e q.1) (fun _ => rfl) hother hown
    (fun o => ?_) (fun o e' got ho _ hdraws => ?_) (fun got hgot hdraws => ?_) haside.accepted
    fun c hc => ?_
  · cases o with
    | worker v => exact haside.client v
    | slot i => exact haside.holder (o := .slot i) nofun
    | loop => exact haside.holder (o := .loop) nofun
    | job t => exact haside.holder (o := .job t) nofun
  · cases o with
    | slot i => exact hdraws
    | loop =>
      simp only [Draws] at hdraws ⊢
      rw [haside.point]
      exact hdraws
    | job t =>
      simp only [Draws] at hdraws ⊢
      rw [haside.pool]
      exact hdraws
    | worker v =>
      have hv : v ≠ w := fun heq => ho (congrArg _ heq)
      refine Or.imp (hstays _) ?_ hdraws
      dsimp only
      rw [Function.update_of_ne hv, hworks]
      exact id
  · rcases hstage got hgot hdraws with hold | ⟨job, head, payload, rfl, hnum, hheads, hnext⟩
    · exact Or.inl (hstays _ hold)
    · rcases hnext with ⟨-, netStart, hanswer⟩ | ⟨-, hserving⟩
      · refine Or.inl ?_
        cases hanswer
        cases hq
        exact List.mem_append_right _ (by rw [hd]; exact List.mem_singleton.mpr rfl)
      · refine Or.inr ⟨job, head, payload ++ gained e q.1, List.append_assoc .., hnum, hheads, ?_⟩
        dsimp only
        rw [Function.update_self]
        exact hserving q.1
  · by_cases hdis : ∃ opcode, e = .dispatch opcode
    · obtain ⟨opcode, rfl⟩ := hdis
      cases hq
      rcases List.mem_append.mp hc with hold | hnew
      · exact Or.inl hold
      · rw [hd] at hnew
        obtain rfl : c = d.token := List.mem_singleton.mp hnew
        obtain ⟨got, hgot, hdraws⟩ := h.owners (.worker w) d hclient
        rcases hstage got hgot hdraws with hold | ⟨job, head, payload, rfl, -, hheads, hnext⟩
        · exact Or.inl hold
        · rcases hnext with ⟨hlen, -⟩ | ⟨hprep, -⟩
          · exact Or.inr ⟨job.header, payload, head, _, hgot, hheads, hlen⟩
          · exact absurd rfl (hprep.2 opcode)
    · exact Or.inl (hdispatched (fun opcode he => hdis ⟨opcode, he⟩) ▸ hc)

omit [DecidableEq W] in
theorem Faithful.environment (h : Faithful root ls s) (running : Bool) (connected : ℕ)
    (sockets : ℕ → Socket)
    (hsock : ∀ c, (sockets c).buffered = (s.sockets c).buffered ++ brought c a) :
    Faithful root (ls ++ [a])
      { s with running := running, sockets := sockets, connected := connected } := by
  refine h.keeps hsock (fun o d ho => Or.inl ⟨o, ?_, fun got hgot => ?_⟩) le_rfl rfl
  · cases o <;> exact ho
  · cases o <;> exact hgot

omit [DecidableEq W] in
theorem client_none {w : W} (h : ∀ a t, s.pool.worker w ≠ .busy a t) : client s w = none := by
  cases hd : client s w with
  | none => rfl
  | some d =>
    obtain ⟨a, t, hw, -⟩ := busy_of_client hd
    exact absurd hw (h a t)

/-- A worker that rests, before and after, or is done with its job. -/
theorem Faithful.rests {w : W} {p : Phase} {pool : ThreadPool.State W} {work : W → Prog Unit}
    (h : Faithful root ls s) (hquiet : ∀ c, brought c a = [])
    (hworker : pool.worker = Function.update s.pool.worker w p) (hp : ∀ a t, p ≠ .busy a t)
    (htaken : pool.taken = s.pool.taken) (hsubmitted : pool.submitted = s.pool.submitted)
    (hwork : ∀ v, v ≠ w → work v = s.work v) :
    Faithful root (ls ++ [a]) { s with pool := pool, work := work } := by
  have hnone : client { s with pool := pool, work := work } w = none := by
    refine client_none fun a t hw => ?_
    change pool.worker w = _ at hw
    rw [hworker, Function.update_self] at hw
    exact hp a t hw
  refine h.keeps (fun c => ?_) (fun o d ho => Or.inl ⟨o, ?_, fun got hgot => ?_⟩) le_rfl rfl
  · rw [hquiet, List.append_nil]
  · cases o with
    | worker v =>
      have hv : v ≠ w := by
        rintro rfl
        exact nomatch hnone.symm.trans ho
      have hsame : client { s with pool := pool, work := work } v = some d ↔
          client s v = some d := by
        refine client_iff (fun a t => ?_) fun _ _ _ => rfl
        change pool.worker v = _ ↔ _
        rw [hworker, Function.update_of_ne hv]
      exact hsame.mp ho
    | job t =>
      simp only [reader, holder, htaken] at ho
      exact ho
    | _ => exact ho
  · cases o with
    | worker v =>
      have hv : v ≠ w := by
        rintro rfl
        exact nomatch hnone.symm.trans ho
      exact hgot.of_eq (fun h => by cases h) hsubmitted rfl fun u hu => by
        cases hu
        exact hwork v hv
    | job t => exact hgot.of_eq (fun h => by cases h) hsubmitted rfl fun u hu => by cases hu
    | _ => exact hgot

/-- A worker takes the first job, whose header the loop has read. -/
theorem Faithful.take {w : W} {pool : ThreadPool.State W} {addr : ℕ} {job : Job}
    {queue : LinkedQueue.Queue Job} (h : Faithful root ls s)
    (htest : s.pool.worker w = .testing)
    (hpool : pool = { s.pool with
      queue := queue
      worker := Function.update s.pool.worker w (.busy addr s.pool.taken.length)
      taken := s.pool.taken ++ [(w, job)] })
    (hi' : Handover.Inv
      { s with pool := pool, work := Function.update s.work w (jobOf root pool w) }) :
    Faithful root (ls ++ [.test w])
      { s with pool := pool, work := Function.update s.work w (jobOf root pool w) } := by
  have hworker : pool.worker =
      Function.update s.pool.worker w (.busy addr s.pool.taken.length) := by
    rw [hpool]
  have hsubmitted : pool.submitted = s.pool.submitted := by rw [hpool]
  have htaken : pool.taken = s.pool.taken ++ [(w, job)] := by rw [hpool]
  have hbusy : pool.worker w = .busy addr s.pool.taken.length := by
    rw [hworker, Function.update_self]
  refine h.keeps (fun c => (List.append_nil _).symm) (fun o d ho => Or.inl ?_) le_rfl rfl
  cases o with
  | slot i => exact ⟨.slot i, ho, fun _ => id⟩
  | loop => exact ⟨.loop, ho, fun _ => id⟩
  | job t =>
    refine ⟨.job t, ?_, fun got hgot =>
      hgot.of_eq (fun h => by cases h) hsubmitted rfl fun u hu => by cases hu⟩
    simp only [reader, holder, htaken, List.length_append, List.length_singleton] at ho ⊢
    by_cases hlt : t < s.pool.taken.length + 1
    · rw [if_pos hlt] at ho
      cases ho
    · rw [if_neg hlt] at ho
      rw [if_neg fun hless => hlt (Nat.lt_succ_of_lt hless)]
      exact ho
  | worker v =>
    by_cases hv : v = w
    · subst hv
      obtain ⟨node, d', hnode, hd', hnum, hnth⟩ := hi'.jobs.ticket hbusy
      obtain rfl : d = d' := Option.some.inj (ho.symm.trans ((client_busy hbusy).trans hd'))
      refine ⟨.job s.pool.taken.length, ?_, fun got hgot => Or.inr ?_⟩
      · simp only [reader, holder, if_neg (lt_irrefl s.pool.taken.length)]
        exact hd'
      · obtain ⟨job', hjob, hheads⟩ := hgot
        obtain ⟨as, xs, hqueue⟩ := hi'.jobs.pool
        have hfirst : pool.submitted[s.pool.taken.length]? = some node.val := by
          have horder : pool.submitted = pool.taken.map Prod.snd ++ xs := hqueue.order
          have hlt : s.pool.taken.length < (pool.taken.map Prod.snd).length := by
            rw [List.length_map, htaken, List.length_append]
            exact Nat.lt_succ_self _
          rw [horder, List.getElem?_append_left hlt, List.getElem?_map]
          exact congrArg (Option.map Prod.snd) hnth
        obtain rfl : job' = node.val := by
          rw [hsubmitted, hjob] at hfirst
          exact Option.some.inj hfirst
        refine ⟨node.val, got, [], (List.append_nil _).symm, hnum.symm, hheads, ?_⟩
        have hwork : jobOf root pool v = processJob root node.val := by
          unfold jobOf
          rw [hbusy]
          dsimp only
          rw [show pool.queue.heap addr = some node from hnode]
        dsimp only
        rw [Function.update_self, hwork]
        exact .start
    · refine ⟨.worker v, ?_, fun got hgot =>
        hgot.of_eq (fun h => by cases h) hsubmitted rfl ?_⟩
      · have hsame : client { s with
              pool := pool, work := Function.update s.work w (jobOf root pool w) } v = some d ↔
            client s v = some d := by
          refine client_iff (fun a t => ?_) fun _ _ _ => rfl
          change pool.worker v = _ ↔ _
          rw [hworker, Function.update_of_ne hv]
        exact hsame.mp ho
      · intro u hu
        cases hu
        exact Function.update_of_ne hv ..

theorem Faithful.step [Fintype W] [Nonempty W] (hi : Handover.Inv s) (h : Faithful root ls s)
    (hstep : next root s a = some s') : Faithful root (ls ++ [a]) s' := by
  have hi' := OneOwner.Inv.step hi hstep
  cases a with
  | connect =>
    cases hstep
    exact h.environment s.running _ s.sockets fun c => (List.append_nil _).symm
  | arrive c bytes =>
    obtain ⟨-, hs⟩ := Option.ite_none_right_eq_some.mp hstep
    cases hs
    refine h.environment s.running s.connected _ fun c' => ?_
    by_cases hc : c' = c
    · subst hc
      simp only [Function.update_self, brought, if_true]
    · simp only [Function.update_of_ne hc, brought, if_neg (Ne.symm hc), List.append_nil]
  | hangup c =>
    obtain ⟨-, hs⟩ := Option.ite_none_right_eq_some.mp hstep
    cases hs
    refine h.environment s.running s.connected _ fun c' => ?_
    by_cases hc : c' = c
    · subst hc
      simp only [Function.update_self, brought, List.append_nil]
    · simp only [Function.update_of_ne hc, brought, List.append_nil]
  | interrupt =>
    cases hstep
    exact h.environment false s.connected s.sockets fun c => (List.append_nil _).symm
  | loop choice =>
    change loopNext s choice = some s' at hstep
    by_cases hreads : ∃ ready i d e k, s.point = .read ready i d (.call e k)
    · obtain ⟨ready, i, d, e, k, hp⟩ := hreads
      simp only [loopNext, hp] at hstep
      cases e with
      | sockRead fd len =>
        obtain ⟨q, hq, rfl⟩ := Option.map_eq_some_iff.mp hstep
        exact h.receive hi hp hq
      | _ => cases hstep
    · exact h.loop hi (loop_cases hstep) fun ready i d e k hp => hreads ⟨ready, i, d, e, k, hp⟩
  | test w =>
    obtain ⟨pool, hpool, rfl⟩ := Option.map_eq_some_iff.mp hstep
    obtain ⟨htest, ⟨p, hidle, -, -, hs⟩ | ⟨addr, job, queue, -, hs⟩⟩ := ThreadPool.test_cases hpool
    · refine h.rests (w := w) (p := p) (fun _ => rfl) ?_ hidle ?_ ?_ fun v hv =>
        Function.update_of_ne hv ..
      all_goals rw [hs]
    · exact h.take htest hs hi'
  | wake w =>
    obtain ⟨pool, hpool, rfl⟩ := Option.map_eq_some_iff.mp hstep
    obtain ⟨-, hs⟩ := Option.ite_none_right_eq_some.mp hpool
    cases hs
    exact h.rests (w := w) (p := .testing) (fun _ => rfl) rfl (fun _ _ h => by cases h) rfl rfl
        fun _ _ => rfl
  | call w t reply =>
    change workerCall s w t reply = some s' at hstep
    unfold workerCall at hstep
    split at hstep
    · next addr ticket e k hbusy hwork =>
      obtain ⟨q, hq, rfl⟩ := Option.map_eq_some_iff.mp hstep
      exact h.call hi hbusy hwork hq
    · cases hstep
  | finish w =>
    simp only [next] at hstep
    split at hstep
    · obtain ⟨pool, hpool, rfl⟩ := Option.map_eq_some_iff.mp hstep
      obtain ⟨addr, ticket, node, -, -, rfl⟩ := ThreadPool.finish_cases hpool
      exact h.rests (w := w) (p := .testing) (fun _ => rfl) rfl (fun _ _ h => by cases h) rfl rfl
        fun _ _ => rfl
    · cases hstep

/-- What the run of a server has made of the bytes that its clients sent. -/
structure Conversed (root : Bytes) (ls : List (Label W)) (s : State W) : Prop where
  /-- Of a client in a slot nothing has been read. -/
  waiting : ∀ i d, holder s (.slot i) = some d →
    (s.sockets d.token).buffered = sentBy d.token ls
  /-- Of a client in the queue its header has been read, and nothing else. -/
  queued : ∀ (t : ℕ) d job, holder s (.job t) = some d → s.pool.submitted[t]? = some job →
    ∃ head, sentBy d.token ls = head ++ (s.sockets d.token).buffered ∧ Heads head job.header
  /-- A worker runs the request that its client sent first, and has read nothing past it. -/
  dispatching : ∀ w d opcode k, client s w = some d → s.work w = .call (.dispatch opcode) k →
    ∃ job head payload netStart, job.clientFd = d.num ∧ Heads head job.header ∧
      payload.length = job.header.payloadLen.toNat ∧
      sentBy d.token ls = head ++ payload ++ (s.sockets d.token).buffered ∧
      s.work w = answer root job netStart payload
  dispatched : ∀ c ∈ s.dispatched, ∃ header payload, Begins (sentBy c ls) header payload
  /-- A worker answers to the client whose request it has dispatched. -/
  answering : ∀ w d fd buf k, client s w = some d → s.work w = .call (.sockWrite fd buf) k →
    s.table.get fd = some (.conn d.token) ∧ d.token ∈ s.dispatched

omit [DecidableEq W] in
/-- What a worker does next is what `process_job` does with the bytes that it has read. -/
theorem worker_proceeds {w : W} {d : Handle} {e : Call} {k : Reply e → Prog Unit}
    (h : Faithful root ls s) (hd : client s w = some d) (hwork : s.work w = .call e k)
    (hnew : d.token ∉ s.dispatched) :
    ∃ job head payload, job.clientFd = d.num ∧ Heads head job.header ∧
      sentBy d.token ls = head ++ payload ++ (s.sockets d.token).buffered ∧
      Proceeds root job payload e k := by
  obtain ⟨got, hgot, hdraws⟩ := h.owners (.worker w) d hd
  obtain ⟨job, head, payload, rfl, hnum, hheads, hserving⟩ := hdraws.resolve_left hnew
  rw [hwork] at hserving
  exact ⟨job, head, payload, hnum, hheads, hgot, hserving.proceeds⟩

/-- Whatever the clients send, in whatever pieces and order, and however the threads of
the server are scheduled, each worker serves what its own client has sent. -/
theorem server_converses [Fintype W] [Nonempty W] {ls : List (Label W)}
    (h : Run (Step root) (start W) ls s) : Conversed root ls s := by
  obtain ⟨hi, hf⟩ : Handover.Inv s ∧ Faithful root ls s := by
    refine h.traceInvariant (I := fun ls s => Handover.Inv s ∧ Faithful root ls s)
      ⟨start_inv, start_faithful root⟩ ?_
    intro ls s a t hinv hstep
    exact ⟨OneOwner.Inv.step hinv.1 hstep, hinv.2.step hinv.1 hstep⟩
  refine ⟨fun i d hd => ?_, fun t d job hd hjob => ?_, fun w d opcode k hd hwork => ?_, hf.past,
    fun w d fd buf k hd hwork => ⟨?_, ?_⟩⟩
  · obtain ⟨got, hgot, rfl⟩ := hf.owners (.slot i) d hd
    exact hgot.symm
  · obtain ⟨got, hgot, job', hjob', hheads⟩ := hf.owners (.job t) d hd
    rw [hjob] at hjob'
    cases hjob'
    exact ⟨got, hgot, hheads⟩
  · obtain ⟨a, t, hbusy, ht⟩ := busy_of_client hd
    obtain ⟨d', held, hd', hworks⟩ := (hi.working w).busy a t hbusy
    obtain rfl : d' = d := Option.some.inj (hd'.symm.trans ht)
    have hnew : d'.token ∉ s.dispatched := by
      intro hmem
      have habides := hworks.abides
      rw [hwork] at habides
      have hfirst : held.dispatched = false := habides.1
      rw [hworks.dispatched.mpr hmem] at hfirst
      cases hfirst
    obtain ⟨job, head, payload, hnum, hheads, hsent, hnext⟩ := worker_proceeds hf hd hwork hnew
    rcases hnext with ⟨hlen, netStart, hanswer⟩ | ⟨hprep, -⟩
    · exact ⟨job, head, payload, netStart, hnum, hheads, hlen, hsent, hwork.trans hanswer⟩
    · exact absurd rfl (hprep.2 opcode)
  · have huse : (fd, Object.conn d.token) ∈ uses s (.call w .all plainReply) := by
      simp only [uses, hd, hwork, List.mem_singleton]
    exact call_uses hi huse
  · by_contra hnew
    obtain ⟨job, head, payload, -, -, -, hnext⟩ := worker_proceeds hf hd hwork hnew
    rcases hnext with ⟨-, netStart, hanswer⟩ | ⟨hprep, -⟩
    · cases hanswer
    · exact hprep.1 fd buf rfl

end Readers

end Invariant

theorem server_converses_drained :
    ∃ s, follow (next []) (start Unit) sampleLife = some s ∧ s.dispatched = [0] ∧
      Conversed [] sampleLife s := by
  obtain ⟨s, hs, hend⟩ := Option.map_eq_some_iff.mp sampleLife_ends
  obtain ⟨-, hend⟩ := Prod.mk.inj hend
  obtain ⟨-, hend⟩ := Prod.mk.inj hend
  exact ⟨s, hs, (Prod.mk.inj hend).2, server_converses (run_of_follow hs)⟩

end NervFS.Conversations
