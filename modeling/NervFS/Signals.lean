import NervFS.FailedUploads
import NervFS.ResponseShapes
import NervFS.World

/-!
A signal that arrives while a worker serves a request. The handler of the signal is
installed without `SA_RESTART`, so a socket read, a socket write or a wait for a file lock
in which it finds the worker fails, and none of them is tried again. Such a failure shows in
the outcome of the request whenever the call would have succeeded, but for the file lock of
a download.
-/
namespace NervFS.Signals

open Programs KeyedStore Calls Protocol FileOps Handlers Requests Kernel Responses World
open ThreadPool ResponseShapes FailedUploads

/-- What a signal makes of the outcome of the call that it interrupts, which fails with
`EINTR`, as a socket write does that has moved nothing yet. The other calls are not
interrupted. -/
def interrupt : Call → Local → Local
  | .sockRead _ _, l =>
    { l with outcomes := { l.outcomes with recvs := .error :: l.outcomes.recvs.tail } }
  | .sockWrite _ _, l =>
    { l with outcomes := { l.outcomes with sends := .error :: l.outcomes.sends.tail } }
  | .setlkw _ _, l =>
    { l with outcomes := { l.outcomes with setlkws := false :: l.outcomes.setlkws.tail } }
  | _, l => l

/-- A signal meets the server and the run of the worker that is in the call. -/
def signal (e : Call) (x : Server × Local) : Server × Local := (x.1, interrupt e x.2)

/-- What the service of a job leaves: the files, and the bytes sent to the client. -/
def observed {α : Type} (r : α × Server × Local) : (Bytes → Node) × Bytes :=
  (node r.2.1.files, r.2.2.sent)

/-- The service of a job from start to end. -/
def serve (host : Host) (job : Job) (s : Server) (l : Local) :
    Option ((Bytes → Node) × Bytes) :=
  ((processJob host.root job).run (exec host) (s, l)).map observed

/-- The service of a job whose worker gets a signal in its call number `n`. -/
def serveInterrupted (host : Host) (job : Job) (s : Server) (l : Local) (n : ℕ) :
    Option ((Bytes → Node) × Bytes) :=
  ((processJob host.root job).runStruck (exec host) signal n (s, l)).map observed

/-- The calls that a handler does not survive: a read or a write of the socket and the file
lock of an upload, when they would have succeeded. -/
def Spoils : (e : Call) → Reply e → Prop
  | .sockRead _ _, r => r ≠ none
  | .sockWrite _ _, r => r ≠ none
  | .setlkw _ .write, r => r = true
  | _, _ => False

/-- The signal spoils no call: the call in which it arrives is one that it does not
interrupt, or one that would have failed anyway, or the file lock of a download. -/
def Undisturbed (host : Host) (job : Job) (s : Server) (l : Local) (n : ℕ) : Prop :=
  ∀ c ∈ (processJob host.root job).callAt (exec host) n (s, l), ¬ Spoils c.1 c.2

/-- The client delivers the whole payload and takes the response, and memory suffices. -/
structure Delivered (job : Job) (l : Local) : Prop where
  steady : Steady l
  recvs : ∀ t ∈ l.outcomes.recvs, t ≠ .error
  whole : job.header.payloadLen.toNat ≤ l.input.length

section Interrupted
variable {host : Host} {α : Type} {s : Server} {l : Local}

/-- The interrupted run of a program. -/
abbrev struck (host : Host) (n : ℕ) (p : Prog α) (x : Server × Local) :
    Option (α × Server × Local) :=
  p.runStruck (exec host) signal n x

theorem sendFrom_cases (buf : Buffer) (data : Bytes) (l : Local) :
    (∃ n, n.val ≤ data.length ∧
      sendFrom buf data l = (some n, l.popSend.send (data.take n.val))) ∨
      sendFrom buf data l = (none, l.popSend) := by
  unfold sendFrom
  dsimp only
  split_ifs with h
  · refine Or.inl ⟨⟨_, h⟩, ?_, rfl⟩
    dsimp only
    split
    · exact le_rfl
    · exact min_le_right ..
    · exact Nat.zero_le _
  · exact Or.inr rfl

/-- A socket that takes what it is offered only refuses to move nothing. -/
theorem sendFrom_delivers {buf : Buffer} {data : Bytes} (hl : Delivers l)
    (hlen : data.length ≤ buf.length) (h : (sendFrom buf data l).1 = none) : data = [] := by
  by_contra hne
  have hpos : 0 < data.length := List.length_pos_iff.mpr hne
  unfold sendFrom at h
  cases ho : l.outcomes.sends.headD .all with
  | all =>
    simp only [ho] at h
    rw [dif_pos ⟨hpos, hlen⟩] at h
    cases h
  | short n =>
    have hmoves : 0 < min (max 1 n) data.length ∧ min (max 1 n) data.length ≤ buf.length := by
      omega
    simp only [ho] at h
    rw [dif_pos hmoves] at h
    cases h
  | error => exact head_ne_error hl ho

theorem sendFrom_interrupt (fd : ℕ) (buf : Buffer) (data : Bytes) (l : Local) :
    sendFrom buf data (interrupt (.sockWrite fd buf) l) = (none, l.popSend) := by
  unfold sendFrom
  exact dif_neg fun h => absurd h.1 (Nat.lt_irrefl 0)

theorem recvInto_none {len : ℕ} (h : (recvInto len l).1 = none) :
    recvInto len l = (none, l.popRecv) := by
  unfold recvInto at h ⊢
  split at h
  · rfl
  · cases h
  · cases h

theorem recvInto_interrupt (fd len : ℕ) (l : Local) :
    recvInto len (interrupt (.sockRead fd len) l) = (none, l.popRecv) := rfl

/-- The bytes that a buffer shows. -/
def visible (σ : Bytes → Node) : Buffer → Bytes
  | .memory bytes => bytes
  | .mapped map off len =>
    match (σ map.ino.name).file map.ino.generation with
    | some f => ((pageFill f.bytes).drop off).take len
    | none => []

/-- The server after a write to the socket; the same files as before. -/
def written (s : Server) : Buffer → Server
  | .memory _ => s
  | .mapped map _ _ =>
    { s with files := s.files.insert map.ino.name (node s.files map.ino.name) }

theorem node_written (s : Server) (buf : Buffer) :
    node (written s buf).files = node s.files := by
  cases buf with
  | memory bytes => rfl
  | mapped map off len => exact node_insert_same ..

theorem held_written (s : Server) (buf : Buffer) : (written s buf).held = s.held := by
  cases buf <;> rfl

theorem exec_sockWrite (host : Host) (fd : ℕ) (buf : Buffer) (s : Server) (l : Local) :
    exec host (.sockWrite fd buf) (s, l) =
      some ((sendFrom buf (visible (node s.files) buf) l).1, written s buf,
        (sendFrom buf (visible (node s.files) buf) l).2) := by
  cases buf with
  | memory bytes => exact exec_own rfl s l
  | mapped map off len => exact exec_access rfl s l

theorem exec_sockRead (host : Host) (fd len : ℕ) (s : Server) (l : Local) :
    exec host (.sockRead fd len) (s, l) = some ((recvInto len l).1, s, (recvInto len l).2) :=
  exec_own rfl s l

theorem exec_setlkw (host : Host) (fd : Fd) (kind : LockKind) (s : Server) (l : Local) :
    exec host (.setlkw fd kind) (s, l) =
      some (l.outcomes.setlkws.headD true, s, l.popSetlkw) :=
  exec_own rfl s l

theorem exec_setlkw_interrupt (fd : Fd) (kind : LockKind) (s : Server) (l : Local) :
    exec host (.setlkw fd kind) (s, interrupt (.setlkw fd kind) l) =
      some (false, s, l.popSetlkw) :=
  exec_own rfl ..

/-- A signal changes nothing about a call that it does not spoil, unless the call is a
shared file lock. -/
theorem exec_interrupt {e : Call} {r : Reply e} {t : Server × Local}
    (h : exec host e (s, l) = some (r, t)) (hspoils : ¬ Spoils e r)
    (hread : ∀ fd, e ≠ .setlkw fd .read) :
    exec host e (s, interrupt e l) = some (r, t) := by
  cases e with
  | sockRead fd len =>
    have hnone : r = none := not_not.mp hspoils
    subst hnone
    rw [exec_sockRead] at h
    have hfail := recvInto_none (congrArg Prod.fst (Option.some.inj h))
    rw [hfail] at h
    rw [exec_sockRead, recvInto_interrupt]
    exact h
  | sockWrite fd buf =>
    have hnone : r = none := not_not.mp hspoils
    subst hnone
    rw [exec_sockWrite] at h
    rw [exec_sockWrite, sendFrom_interrupt]
    rcases sendFrom_cases buf (visible (node s.files) buf) l with hsent | hfail
    · obtain ⟨n, -, hn⟩ := hsent
      rw [hn] at h
      cases h
    · rw [hfail] at h
      exact h
  | setlkw fd kind =>
    cases kind with
    | read => exact absurd rfl (hread fd)
    | write =>
      have hno : r = false := Bool.eq_false_iff.mpr hspoils
      subst hno
      rw [exec_setlkw] at h
      have hhead : l.outcomes.setlkws.headD true = false := congrArg Prod.fst (Option.some.inj h)
      rw [exec_setlkw_interrupt, ← h, hhead]
  | _ => exact h

theorem interrupt_of_waits {e : Call} (h : exec host e (s, l) = none) : interrupt e l = l := by
  cases e with
  | sockRead fd len =>
    rw [exec_sockRead] at h
    cases h
  | sockWrite fd buf =>
    rw [exec_sockWrite] at h
    cases h
  | setlkw fd kind =>
    rw [exec_setlkw] at h
    cases h
  | _ => rfl

theorem struck_of_undisturbed {p : Prog α} (hp : Heedless p) (n : ℕ)
    (h : ∀ c ∈ p.callAt (exec host) n (s, l), ¬ Spoils c.1 c.2) :
    struck host n p (s, l) = p.run (exec host) (s, l) := by
  induction p generalizing n s l with
  | ret a => cases n <;> rfl
  | stuck => cases n <;> rfl
  | call e k ih =>
    cases hexec : exec host e (s, l) with
    | none =>
      have hsame := interrupt_of_waits hexec
      cases n with
      | zero =>
        change (exec host e (s, interrupt e l)).bind _ = _
        rw [hsame]
        rfl
      | succ n =>
        rw [Program.run_call, hexec]
        change (exec host e (s, l)).bind _ = _
        rw [hexec]
        rfl
    | some q =>
      obtain ⟨r, s', l'⟩ := q
      cases n with
      | succ n =>
        rw [struck, Program.runStruck_succ hexec, Program.run_call_of hexec]
        apply ih r (hp.2 r)
        intro c hc
        apply h
        rw [Program.callAt_succ hexec]
        exact hc
      | zero =>
        have hspoils : ¬ Spoils e r := h ⟨e, r⟩ (Program.callAt_zero hexec)
        rw [Program.run_call_of hexec]
        by_cases hread : ∃ fd, e = .setlkw fd .read
        · obtain ⟨fd, rfl⟩ := hread
          have hover : k false = k true := hp.1
          rw [struck, Program.runStruck_zero (exec_setlkw_interrupt fd .read s l)]
          rw [exec_setlkw] at hexec
          cases hexec
          cases l.outcomes.setlkws.headD true with
          | true => rw [hover]
          | false => rfl
        · have hstruck := exec_interrupt hexec hspoils fun fd hfd => hread ⟨fd, hfd⟩
          exact Program.runStruck_zero hstruck

end Interrupted

section Sent
variable {host : Host} {α : Type} {s s' : Server} {l l' : Local}

/-- The step has sent nothing, and what is still to come is as good as before. -/
structure Hushed (l l' : Local) : Prop where
  sent : l'.sent = l.sent
  steady : Steady l → Steady l'

theorem hushed_refl (l : Local) : Hushed l l := ⟨rfl, id⟩

theorem hushed_malloc (l : Local) : Hushed l l.popMalloc :=
  ⟨rfl, fun h => ⟨h.delivers, fun b hb => h.mallocs b (List.mem_of_mem_tail hb)⟩⟩

theorem own_hushed {e : Call} (he : ∀ fd buf, e ≠ .sockWrite fd buf) (l : Local) :
    Hushed l (own e l).2 := by
  cases e with
  | sockRead fd len =>
    change Hushed l (recvInto len l).2
    unfold recvInto
    split <;> exact ⟨rfl, fun h => ⟨h.delivers, h.mallocs⟩⟩
  | sockWrite fd buf => exact absurd rfl (he fd buf)
  | setlkw fd kind => exact ⟨rfl, fun h => ⟨h.delivers, h.mallocs⟩⟩
  | clockGettime => exact ⟨rfl, fun h => ⟨h.delivers, h.mallocs⟩⟩
  | malloc size => exact hushed_malloc l
  | mmap fd size => exact ⟨rfl, fun h => ⟨h.delivers, h.mallocs⟩⟩
  | _ => exact hushed_refl l

theorem touch_hushed {e : Call} (he : ∀ fd buf, e ≠ .sockWrite fd buf) (v : Node) (l : Local) :
    Hushed l (touch host e v l).2.2 := by
  have hrest : ∀ {l' : Local}, l'.sent = l.sent → l'.outcomes.sends = l.outcomes.sends →
      l'.outcomes.mallocs = l.outcomes.mallocs → Hushed l l' := fun hsent hsends hmallocs =>
    ⟨hsent, fun h => ⟨fun o ho => h.delivers o (hsends ▸ ho), fun b hb => h.mallocs b
      (hmallocs ▸ hb)⟩⟩
  cases e with
  | openWrite path =>
    simp only [touch]
    split
    · unfold openWriteNode
      split_ifs
      · exact hrest rfl rfl rfl
      · split
        · split_ifs <;> exact hrest rfl rfl rfl
        · exact hrest rfl rfl rfl
    · exact hushed_refl l
  | openRead path =>
    simp only [touch]
    split
    · unfold openReadNode
      split
      · split_ifs <;> exact hrest rfl rfl rfl
      · exact hrest rfl rfl rfl
    · exact hushed_refl l
  | fstat fd => exact hrest rfl rfl rfl
  | write fd data =>
    simp only [touch]
    unfold writeNode
    split <;> exact hrest rfl rfl rfl
  | unlink path =>
    simp only [touch]
    unfold unlinkNode
    split
    · split_ifs <;> exact hrest rfl rfl rfl
    · exact hrest rfl rfl rfl
  | chmod path mode =>
    simp only [touch]
    unfold chmodNode
    split
    · split_ifs <;> exact hrest rfl rfl rfl
    · exact hrest rfl rfl rfl
  | stat path => exact hrest rfl rfl rfl
  | sockWrite fd buf => exact absurd rfl (he fd buf)
  | _ => exact own_hushed he l

theorem exec_hushed {e : Call} (he : ∀ fd buf, e ≠ .sockWrite fd buf) {r : Reply e}
    (h : exec host e (s, l) = some (r, s', l')) : Hushed l l' := by
  cases hr : role host e with
  | own =>
    rw [exec_own hr] at h
    cases h
    exact own_hushed he l
  | access name m =>
    rw [exec_access hr] at h
    cases h
    exact touch_hushed he _ l
  | acquire name m =>
    simp only [exec, hr] at h
    split at h
    · cases h
      exact own_hushed he l
    · cases h
  | release name m =>
    rw [exec_release hr] at h
    cases h
    exact own_hushed he l
  | other =>
    simp only [exec, hr] at h
    cases e with
    | opendir =>
      cases h
      exact ⟨rfl, fun h => ⟨h.delivers, h.mallocs⟩⟩
    | _ => cases h

/-- The server after a call that gives something back. -/
def closed (s : Server) : Call → Server
  | .lockRelease kind name => { s with held := s.held.erase (name, modeOf kind) }
  | _ => s

theorem closed_files (s : Server) (e : Call) : (closed s e).files = s.files := by
  cases e <;> rfl

theorem exec_closing (host : Host) {e : Call} (he : Closing e) (s : Server) (l : Local) :
    exec host e (s, l) = some ((own e l).1, closed s e, l) := by
  cases e with
  | lockRelease kind name => exact exec_release rfl s l
  | unlck fd => exact exec_own rfl s l
  | munmap map => exact exec_own rfl s l
  | close fd => exact exec_own rfl s l
  | sockClose fd => exact exec_own rfl s l
  | _ => exact he.elim

theorem closing_reply {e : Call} (he : Closing e) (l l' : Local) : (own e l).1 = (own e l').1 := by
  cases e with
  | lockRelease kind name => rfl
  | unlck fd => rfl
  | munmap map => rfl
  | close fd => rfl
  | sockClose fd => rfl
  | _ => exact he.elim

theorem closing_not_spoils {e : Call} (he : Closing e) (r : Reply e) : ¬ Spoils e r := by
  cases e with
  | sockRead fd len => exact he.elim
  | sockWrite fd buf => exact he.elim
  | setlkw fd kind => exact he.elim
  | _ => exact id

theorem prompt_not_spoils {e : Call} (he : Prompt e) (r : Reply e) : ¬ Spoils e r := by
  cases e with
  | sockRead fd len => exact he.elim
  | sockWrite fd buf => exact he.elim
  | setlkw fd kind => exact he.elim
  | _ => exact id

theorem visible_drop (σ : Bytes → Node) (buf : Buffer) (n : ℕ) :
    visible σ (buf.drop n) = (visible σ buf).drop n := by
  cases buf with
  | memory bytes => rfl
  | mapped map off len =>
    simp only [Buffer.drop, visible]
    split
    · rw [List.drop_take, List.drop_drop]
    · rw [List.drop_nil]

theorem visible_length_le (σ : Bytes → Node) (buf : Buffer) :
    (visible σ buf).length ≤ buf.length := by
  cases buf with
  | memory bytes => exact le_rfl
  | mapped map off len =>
    simp only [visible]
    split
    · exact List.length_take_le ..
    · exact Nat.zero_le _

/-- What a send leaves: the files and the locks as they were, and `bytes` sent. -/
structure Sends (s : Server) (l : Local) (s' : Server) (l' : Local) (bytes : Bytes) : Prop where
  files : node s'.files = node s.files
  held : s'.held = s.held
  sent : l'.sent = l.sent ++ bytes
  steady : Steady l → Steady l'

theorem Sends.trans {s'' : Server} {l'' : Local} {bytes bytes' : Bytes}
    (h : Sends s l s' l' bytes) (k : Sends s' l' s'' l'' bytes') :
    Sends s l s'' l'' (bytes ++ bytes') :=
  ⟨k.files.trans h.files, k.held.trans h.held, by rw [k.sent, h.sent, List.append_assoc],
    k.steady ∘ h.steady⟩

theorem popSend_steady (h : Steady l) : Steady l.popSend :=
  ⟨fun o ho => h.delivers o (List.mem_of_mem_tail ho), h.mallocs⟩

/-- A send puts out a part of its buffer, and all that can be seen of it when the socket
takes it. -/
theorem sendLoop_runs (fd rounds : ℕ) (buf : Buffer) (total : ℕ) (s : Server) (l : Local) :
    ∃ r s' l' bytes, (sendLoop fd rounds buf total).run (exec host) (s, l) = some (r, s', l') ∧
      Sends s l s' l' bytes ∧ bytes.length ≤ (visible (node s.files) buf).length ∧
      (Delivers l → buf.length ≤ rounds → bytes = visible (node s.files) buf) := by
  have hnil : ∀ {l : Local}, Sends s l s l [] := ⟨rfl, rfl, (List.append_nil _).symm, id⟩
  induction rounds generalizing buf total s l with
  | zero =>
    refine ⟨_, s, l, [], rfl, hnil, Nat.zero_le _, fun _ hlen => ?_⟩
    have hle := visible_length_le (node s.files) buf
    exact (List.eq_nil_of_length_eq_zero (by omega)).symm
  | succ rounds ih =>
    unfold sendLoop
    by_cases hzero : buf.length = 0
    · rw [if_pos hzero]
      refine ⟨_, s, l, [], rfl, hnil, Nat.zero_le _, fun _ _ => ?_⟩
      have hle := visible_length_le (node s.files) buf
      exact (List.eq_nil_of_length_eq_zero (by omega)).symm
    rw [if_neg hzero]
    have hexec := exec_sockWrite host fd buf s l
    rcases sendFrom_cases buf (visible (node s.files) buf) l with hsent | hfail
    · obtain ⟨m, hpart, hm⟩ := hsent
      rw [hm] at hexec
      obtain ⟨r, s', l', bytes, hrun, hsends, hle, hall⟩ := ih (buf.drop m.val) (total + m.val)
        (written s buf) (l.popSend.send ((visible (node s.files) buf).take m.val))
        ⟨rfl, rfl, (List.append_nil _).symm, id⟩
      rw [node_written, visible_drop] at hle hall
      refine ⟨r, s', l', (visible (node s.files) buf).take m.val ++ bytes, ?_, ?_, ?_, ?_⟩
      · exact (Program.run_call_of hexec).trans hrun
      · refine Sends.trans ⟨node_written s buf, held_written s buf, rfl, ?_⟩ hsends
        exact fun h => ⟨(popSend_steady h).delivers, h.mallocs⟩
      · rw [List.length_append, List.length_take]
        rw [List.length_drop] at hle
        omega
      · intro hl hlen
        have hpos := m.property.1
        rw [hall (fun o ho => hl o (List.mem_of_mem_tail ho))
          (by rw [Buffer.length_drop]; omega), List.take_append_drop]
    · rw [hfail] at hexec
      refine ⟨none, written s buf, l.popSend, [], Program.run_call_of hexec, ?_,
        Nat.zero_le _, fun hl _ => ?_⟩
      · exact ⟨node_written s buf, held_written s buf, (List.append_nil _).symm, popSend_steady⟩
      · have hle := visible_length_le (node s.files) buf
        exact (sendFrom_delivers hl hle (congrArg Prod.fst hfail)).symm

theorem sendFull_runs (host : Host) (fd : ℕ) (buf : Buffer) (s : Server) (l : Local) :
    ∃ r s' l' bytes, (sendFull fd buf).run (exec host) (s, l) = some (r, s', l') ∧
      Sends s l s' l' bytes ∧ bytes.length ≤ (visible (node s.files) buf).length ∧
      (Delivers l → bytes = visible (node s.files) buf) := by
  obtain ⟨r, s', l', bytes, hrun, hsends, hle, hall⟩ := sendLoop_runs fd buf.length buf 0 s l
  exact ⟨r, s', l', bytes, hrun, hsends, hle, fun hl => hall hl le_rfl⟩

theorem sendLoop_struck (fd rounds : ℕ) (buf : Buffer) (total : ℕ) (s : Server) (l : Local)
    (n : ℕ) {c : (e : Call) × Reply e} (hl : Delivers l)
    (hcall : (sendLoop fd rounds buf total).callAt (exec host) n (s, l) = some c)
    (hspoils : Spoils c.1 c.2) :
    ∃ r s' l' bytes, struck host n (sendLoop fd rounds buf total) (s, l) = some (r, s', l') ∧
      Sends s l s' l' bytes ∧ bytes.length < (visible (node s.files) buf).length := by
  induction rounds generalizing buf total s l n with
  | zero => cases n <;> cases hcall
  | succ rounds ih =>
    unfold sendLoop at hcall ⊢
    by_cases hzero : buf.length = 0
    · rw [if_pos hzero] at hcall
      cases n <;> cases hcall
    rw [if_neg hzero] at hcall ⊢
    simp only [sockWrite, invoke, Program.perform_bind] at hcall ⊢
    have hexec := exec_sockWrite host fd buf s l
    rcases sendFrom_cases buf (visible (node s.files) buf) l with hsent | hfail
    · obtain ⟨m, hpart, hm⟩ := hsent
      rw [hm] at hexec
      cases n with
      | zero =>
        have hstruck := exec_sockWrite host fd buf s (interrupt (.sockWrite fd buf) l)
        rw [sendFrom_interrupt] at hstruck
        refine ⟨none, written s buf, l.popSend, [], ?_, ?_, ?_⟩
        · exact (Program.runStruck_zero hstruck).trans rfl
        · exact ⟨node_written s buf, held_written s buf, (List.append_nil _).symm, popSend_steady⟩
        · have hpos := m.property.1
          rw [List.length_nil]
          omega
      | succ n =>
        rw [Program.callAt_succ hexec] at hcall
        rw [struck, Program.runStruck_succ hexec]
        obtain ⟨r, s', l', bytes, hrun, hsends, hlt⟩ := ih (buf.drop m.val) (total + m.val)
          (written s buf) (l.popSend.send ((visible (node s.files) buf).take m.val)) n
          (fun o ho => hl o (List.mem_of_mem_tail ho)) hcall
        rw [node_written, visible_drop, List.length_drop] at hlt
        refine ⟨r, s', l', (visible (node s.files) buf).take m.val ++ bytes, hrun, ?_, ?_⟩
        · refine Sends.trans ⟨node_written s buf, held_written s buf, rfl, ?_⟩ hsends
          exact fun h => ⟨(popSend_steady h).delivers, h.mallocs⟩
        · rw [List.length_append, List.length_take]
          omega
    · rw [hfail] at hexec
      cases n with
      | zero =>
        rw [Program.callAt_zero hexec] at hcall
        cases hcall
        exact absurd rfl hspoils
      | succ n =>
        rw [Program.callAt_succ hexec] at hcall
        cases n <;> cases hcall

theorem run_prefix {p : Prog α} {a : α} (h : p.run (exec host) (s, l) = some (a, s', l')) :
    l.sent <+: l'.sent := by
  induction p generalizing s l with
  | ret b =>
    cases h
    exact List.prefix_refl _
  | stuck => cases h
  | call e k ih =>
    obtain ⟨r, t, hexec, hk⟩ := Program.run_call_some h
    have hrest : t.2.sent <+: l'.sent := ih r hk
    apply List.IsPrefix.trans _ hrest
    by_cases hwrite : ∃ fd buf, e = .sockWrite fd buf
    · obtain ⟨fd, buf, rfl⟩ := hwrite
      rw [exec_sockWrite] at hexec
      cases hexec
      rcases sendFrom_cases buf (visible (node s.files) buf) l with hsent | hfail
      · obtain ⟨m, -, hm⟩ := hsent
        rw [hm]
        exact List.prefix_append ..
      · rw [hfail]
        exact List.prefix_refl _
    · rw [(exec_hushed (fun fd buf he => hwrite ⟨fd, buf, he⟩) hexec).sent]

/-- The rest of a handler sends less when a signal, or whatever else, disturbs its sends. -/
theorem tail_le {p : Prog Unit} (hp : Tail p) {s₂ s₁' s₂' : Server} {l₂ l₁' l₂' : Local}
    (hfiles : node s₂.files = node s.files) (hl : Steady l)
    (h : p.run (exec host) (s, l) = some ((), s₁', l₁'))
    (h₂ : p.run (exec host) (s₂, l₂) = some ((), s₂', l₂')) :
    l₂'.sent.length + l.sent.length ≤ l₁'.sent.length + l₂.sent.length := by
  induction hp generalizing s l s₂ l₂ with
  | ret =>
    cases h
    cases h₂
    exact Nat.le_of_eq (Nat.add_comm ..)
  | stuck => cases h
  | call he _ ih =>
    rw [Program.run_call_of (exec_closing host he s l)] at h
    rw [Program.run_call_of (exec_closing host he s₂ l₂), closing_reply he l₂ l] at h₂
    apply ih _ _ hl h h₂
    rw [closed_files, closed_files]
    exact hfiles
  | @send fd buf p _ ih =>
    obtain ⟨r, t, m, bytes, hrun, hsends, -, hall⟩ := sendFull_runs host fd buf s l
    obtain ⟨r₂, t₂, m₂, bytes₂, hrun₂, hsends₂, hle, -⟩ :=
      sendFull_runs host fd buf s₂ l₂
    rw [Program.run_bind, hrun] at h
    rw [Program.run_bind, hrun₂] at h₂
    have hrest := ih (by rw [hsends.files, hsends₂.files, hfiles]) (hsends.steady hl) h h₂
    rw [hfiles, ← hall hl.delivers] at hle
    rw [hsends.sent, hsends₂.sent, List.length_append, List.length_append] at hrest
    omega

/-- A signal that spoils a call of the rest of a handler cuts the response. -/
theorem tail_struck {p : Prog Unit} (hp : Tail p) (n : ℕ) {c : (e : Call) × Reply e}
    {s₁' s₂' : Server} {l₁' l₂' : Local} (hl : Steady l)
    (h : p.run (exec host) (s, l) = some ((), s₁', l₁'))
    (hcall : p.callAt (exec host) n (s, l) = some c) (hspoils : Spoils c.1 c.2)
    (h₂ : struck host n p (s, l) = some ((), s₂', l₂')) :
    l₂'.sent.length < l₁'.sent.length := by
  induction hp generalizing s l n with
  | ret => cases n <;> cases hcall
  | stuck => cases h
  | call he _ ih =>
    have hexec := exec_closing host he s l
    rw [Program.run_call_of hexec] at h
    cases n with
    | zero =>
      rw [Program.callAt_zero hexec] at hcall
      cases hcall
      exact absurd hspoils (closing_not_spoils he _)
    | succ n =>
      rw [Program.callAt_succ hexec] at hcall
      rw [struck, Program.runStruck_succ hexec] at h₂
      exact ih _ n hl h hcall h₂
  | @send fd buf p hp ih =>
    obtain ⟨r, t, m, bytes, hrun, hsends, -, hall⟩ := sendFull_runs host fd buf s l
    rw [Program.run_bind, hrun] at h
    rcases Program.struck_bind signal (fun _ => p) n hrun
      with hfirst | hsecond
    · obtain ⟨c', hc, hcall', hstruck⟩ := hfirst
      cases hcall'.symm.trans hcall
      obtain ⟨r₂, t₂, m₂, bytes₂, hrun₂, hsends₂, hlt⟩ :=
        sendLoop_struck fd buf.length buf 0 s l n hl.delivers hc hspoils
      rw [struck, hstruck] at h₂
      change Option.bind (struck host n (sendFull fd buf) (s, l)) _ = _ at h₂
      rw [show struck host n (sendFull fd buf) (s, l) = _ from hrun₂] at h₂
      have hrest := tail_le hp (by rw [hsends.files, hsends₂.files]) (hsends.steady hl) h h₂
      rw [← hall hl.delivers] at hlt
      rw [hsends.sent, hsends₂.sent, List.length_append, List.length_append] at hrest
      omega
    · obtain ⟨k, hcall', hstruck⟩ := hsecond
      rw [hcall'] at hcall
      rw [struck, hstruck] at h₂
      exact ih k (hsends.steady hl) h hcall h₂

theorem prompt_not_write {e : Call} (he : Prompt e) (fd : ℕ) (buf : Buffer) :
    e ≠ .sockWrite fd buf := by
  intro heq
  subst heq
  exact he

theorem exec_malloc (host : Host) (size : ℕ) (s : Server) (hl : Steady l) :
    exec host (.malloc size) (s, l) = some (true, s, l.popMalloc) := by
  refine (exec_own rfl s l).trans ?_
  change some (l.outcomes.mallocs.headD true, s, l.popMalloc) = _
  rw [head_mallocs hl.mallocs]

theorem overlooked {k : Bool → Prog Unit} (hk : k false = k true) (b : Bool) : k b = k true := by
  cases b with
  | true => rfl
  | false => exact hk

theorem setlkw_steady (h : Steady l) : Steady l.popSetlkw := ⟨h.delivers, h.mallocs⟩

/-- A handler that returns has sent a header that its shape allows. -/
theorem shaped_answers {H : UInt16 → UInt32 → Prop} {p : Prog Unit} (hp : Shaped H p)
    (hl : Steady l) (h : p.run (exec host) (s, l) = some ((), s', l')) :
    ∃ opcode len us, H opcode len ∧
      l.sent ++ serializeHeader (responseHeader opcode len us) <+: l'.sent := by
  induction hp generalizing s l with
  | stuck => cases h
  | call he _ ih =>
    obtain ⟨r, t, hexec, hk⟩ := Program.run_call_some h
    have hhush := exec_hushed (prompt_not_write he) hexec
    obtain ⟨opcode, len, us, hH, hpre⟩ := ih r (hhush.steady hl) hk
    exact ⟨opcode, len, us, hH, hhush.sent ▸ hpre⟩
  | malloc _ _ ih =>
    rw [Program.run_call_of (exec_malloc _ _ s hl)] at h
    have hrest := ih ((hushed_malloc l).steady hl) h
    exact hrest
  | record hk _ ih =>
    rw [Program.run_call_of (exec_setlkw _ _ _ s l), overlooked hk] at h
    have hrest := ih (setlkw_steady hl) h
    exact hrest
  | lock hH _ _ ih ih' =>
    rw [Program.run_call_of (exec_setlkw _ _ _ s l)] at h
    cases hlocked : l.outcomes.setlkws.headD true with
    | true =>
      rw [hlocked] at h
      obtain ⟨opcode, len, us, -, hpre⟩ := ih' (setlkw_steady hl) h
      exact ⟨opcode, len, us, hH _ _, hpre⟩
    | false =>
      rw [hlocked] at h
      obtain ⟨opcode, len, us, -, hpre⟩ := ih (setlkw_steady hl) h
      exact ⟨opcode, len, us, hH _ _, hpre⟩
  | @send H fd opcode len us p hH _ =>
    obtain ⟨r, t, m, bytes, hrun, hsends, -, hall⟩ := sendFull_runs host fd
      (.memory (serializeHeader (responseHeader opcode len us))) s l
    rw [Program.run_bind, hrun] at h
    have hheader : bytes = serializeHeader (responseHeader opcode len us) := hall hl.delivers
    refine ⟨opcode, len, us, hH, ?_⟩
    rw [← hheader, ← hsends.sent]
    exact run_prefix h

theorem header_unique {base bytes : Bytes} {opcode opcode' : UInt16} {len len' : UInt32}
    {us us' : UInt64}
    (h : base ++ serializeHeader (responseHeader opcode len us) <+: bytes)
    (h' : base ++ serializeHeader (responseHeader opcode' len' us') <+: bytes) :
    opcode = opcode' ∧ len = len' := by
  have hlen : (base ++ serializeHeader (responseHeader opcode len us)).length =
      (base ++ serializeHeader (responseHeader opcode' len' us')).length := by
    rw [List.length_append, List.length_append, serializeHeader_length, serializeHeader_length]
  have heq := List.append_cancel_left ((List.prefix_of_prefix_length_le h h' hlen.le).eq_of_length
    hlen)
  have hparse := parseHeader_serializeHeader (responseHeader opcode len us) [] rfl rfl
  rw [heq, parseHeader_serializeHeader _ [] rfl rfl] at hparse
  have hheaders := Option.some.inj hparse
  exact ⟨(congrArg Header.opcode hheaders).symm, (congrArg Header.payloadLen hheaders).symm⟩

/-- A signal that spoils a call of a handler shows in its response. -/
theorem shaped_struck {H : UInt16 → UInt32 → Prop} {p : Prog Unit} (hp : Shaped H p) (n : ℕ)
    {c : (e : Call) × Reply e} {s₁' s₂' : Server} {l₁' l₂' : Local} (hl : Steady l)
    (h : p.run (exec host) (s, l) = some ((), s₁', l₁'))
    (hcall : p.callAt (exec host) n (s, l) = some c) (hspoils : Spoils c.1 c.2)
    (h₂ : struck host n p (s, l) = some ((), s₂', l₂')) : l₂'.sent ≠ l₁'.sent := by
  induction hp generalizing s l n with
  | stuck => cases h
  | call he _ ih =>
    obtain ⟨r, t, hexec, hk⟩ := Program.run_call_some h
    cases n with
    | zero =>
      rw [Program.callAt_zero hexec] at hcall
      cases hcall
      exact absurd hspoils (prompt_not_spoils he _)
    | succ n =>
      rw [Program.callAt_succ hexec] at hcall
      rw [struck, Program.runStruck_succ hexec] at h₂
      exact ih r n ((exec_hushed (prompt_not_write he) hexec).steady hl) hk hcall h₂
  | malloc _ _ ih =>
    have hexec := fun size => exec_malloc host size s hl
    rw [Program.run_call_of (hexec _)] at h
    cases n with
    | zero =>
      rw [Program.callAt_zero (hexec _)] at hcall
      cases hcall
      exact hspoils.elim
    | succ n =>
      rw [Program.callAt_succ (hexec _)] at hcall
      rw [struck, Program.runStruck_succ (hexec _)] at h₂
      exact ih n ((hushed_malloc l).steady hl) h hcall h₂
  | record hk _ ih =>
    have hexec := fun fd => exec_setlkw host fd .read s l
    rw [Program.run_call_of (hexec _), overlooked hk] at h
    cases n with
    | zero =>
      rw [Program.callAt_zero (hexec _)] at hcall
      cases hcall
      exact hspoils.elim
    | succ n =>
      rw [Program.callAt_succ (hexec _), overlooked hk] at hcall
      rw [struck, Program.runStruck_succ (hexec _), overlooked hk] at h₂
      exact ih n (setlkw_steady hl) h hcall h₂
  | @lock H fd k hH hrefused hlocked ih ih' =>
    have hexec := exec_setlkw host fd .write s l
    rw [Program.run_call_of hexec] at h
    cases n with
    | zero =>
      rw [Program.callAt_zero hexec] at hcall
      cases hcall
      have hgranted : l.outcomes.setlkws.headD true = true := hspoils
      rw [hgranted] at h
      have hstruck : struck host 0 (.call (.setlkw fd .write) k) (s, l) =
          (k false).run (exec host) (s, l.popSetlkw) :=
        Program.runStruck_zero (exec_setlkw_interrupt fd .write s l)
      rw [hstruck] at h₂
      obtain ⟨opcode, len, us, hother, hpre⟩ := shaped_answers hlocked (setlkw_steady hl) h
      obtain ⟨opcode₂, len₂, us₂, hrefused, hpre₂⟩ :=
        shaped_answers hrefused (setlkw_steady hl) h₂
      intro heq
      rw [heq] at hpre₂
      obtain ⟨rfl, rfl⟩ := header_unique hpre hpre₂
      exact hother hrefused
    | succ n =>
      rw [Program.callAt_succ hexec] at hcall
      rw [struck, Program.runStruck_succ hexec] at h₂
      cases hreply : l.outcomes.setlkws.headD true with
      | true =>
        rw [hreply] at h hcall h₂
        exact ih' n (setlkw_steady hl) h hcall h₂
      | false =>
        rw [hreply] at h hcall h₂
        exact ih n (setlkw_steady hl) h hcall h₂
  | send hH htail =>
    intro heq
    have hlt := tail_struck (Tail.send htail) n hl h hcall hspoils h₂
    rw [heq] at hlt
    exact Nat.lt_irrefl _ hlt

theorem recvInto_delivered {len : ℕ} (hlen : 0 < len) (hinput : 0 < l.input.length)
    (hrecvs : ∀ t ∈ l.outcomes.recvs, t ≠ .error) :
    ∃ chunk l', recvInto len l = (some chunk, l') ∧ chunk.val ≠ [] ∧ Hushed l l' ∧
      chunk.val.length + l'.input.length = l.input.length ∧
      ∀ t ∈ l'.outcomes.recvs, t ≠ .error := by
  have htail : ∀ t ∈ l.outcomes.recvs.tail, t ≠ .error :=
    fun t ht => hrecvs t (List.mem_of_mem_tail ht)
  have htake : ∀ m, 0 < m → l.input.take m ≠ [] ∧
      (l.input.take m).length + (l.input.drop m).length = l.input.length := by
    intro m hm
    refine ⟨List.ne_nil_of_length_pos ?_, ?_⟩
    · rw [List.length_take]
      omega
    · rw [← List.length_append, List.take_append_drop]
  have hhush : ∀ m, Hushed l (l.popRecv.consume m) := fun m =>
    ⟨rfl, fun h => ⟨h.delivers, h.mallocs⟩⟩
  unfold recvInto
  cases ht : l.outcomes.recvs.headD .all with
  | all => exact ⟨_, _, rfl, (htake len hlen).1, hhush _, (htake len hlen).2, htail⟩
  | short m =>
    have hpos : 0 < min (max 1 m) len := by omega
    exact ⟨_, _, rfl, (htake _ hpos).1, hhush _, (htake _ hpos).2, htail⟩
  | error => exact absurd ht (head_ne_error hrecvs)

/-- What `recvLoop` needs to get all its bytes. -/
structure Arrives (len rounds : ℕ) (got : Bytes) (l : Local) : Prop where
  recvs : ∀ t ∈ l.outcomes.recvs, t ≠ .error
  input : len ≤ got.length + l.input.length
  rounds : len ≤ got.length + rounds

theorem recvLoop_runs (host : Host) {len rounds : ℕ} {got : Bytes} (fd : ℕ) (s : Server)
    (h : Arrives len rounds got l) :
    ∃ got' l', (recvLoop fd len rounds got).run (exec host) (s, l) = some (some got', s, l') ∧
      len ≤ got'.length ∧ Hushed l l' := by
  induction rounds generalizing got l with
  | zero => exact ⟨got, l, rfl, h.rounds, hushed_refl l⟩
  | succ rounds ih =>
    unfold recvLoop
    by_cases hall : len ≤ got.length
    · rw [if_pos hall]
      exact ⟨got, l, rfl, hall, hushed_refl l⟩
    have hinput := h.input
    obtain ⟨chunk, l₁, hrecv, hne, hhush, hlen, hrecvs⟩ := recvInto_delivered
      (Nat.sub_pos_of_lt (Nat.lt_of_not_le hall)) (by omega) h.recvs
    have hexec := exec_sockRead host fd (len - got.length) s l
    rw [hrecv] at hexec
    have hpos := List.length_pos_iff.mpr hne
    have hrounds := h.rounds
    have hnext : Arrives len rounds (got ++ chunk.val) l₁ := by
      refine ⟨hrecvs, ?_, ?_⟩
      · rw [List.length_append]
        omega
      · rw [List.length_append]
        omega
    obtain ⟨got', l', hrun, hgot, hhush'⟩ := ih hnext
    refine ⟨got', l', ?_, hgot, ⟨hhush'.sent.trans hhush.sent, hhush'.steady ∘ hhush.steady⟩⟩
    rw [if_neg hall]
    refine (Program.run_call_of hexec).trans ?_
    change Program.run _ (if chunk.val = [] then _ else _) _ = _
    rw [if_neg hne]
    exact hrun

theorem recvLoop_struck {len rounds : ℕ} {got : Bytes} (fd : ℕ) (s : Server)
    (h : Arrives len rounds got l) (n : ℕ) {c : (e : Call) × Reply e}
    (hcall : (recvLoop fd len rounds got).callAt (exec host) n (s, l) = some c) :
    ∃ l', struck host n (recvLoop fd len rounds got) (s, l) = some (none, s, l') ∧
      l'.sent = l.sent := by
  induction rounds generalizing got l n with
  | zero => cases n <;> cases hcall
  | succ rounds ih =>
    unfold recvLoop at hcall ⊢
    by_cases hall : len ≤ got.length
    · rw [if_pos hall] at hcall
      cases n <;> cases hcall
    rw [if_neg hall] at hcall ⊢
    simp only [sockRead, invoke, Program.perform_bind] at hcall ⊢
    have hinput := h.input
    obtain ⟨chunk, l₁, hrecv, hne, hhush, hlen, hrecvs⟩ := recvInto_delivered
      (Nat.sub_pos_of_lt (Nat.lt_of_not_le hall)) (by omega) h.recvs
    have hexec := exec_sockRead host fd (len - got.length) s l
    rw [hrecv] at hexec
    cases n with
    | zero =>
      refine ⟨l.popRecv, ?_, rfl⟩
      have hstruck := exec_sockRead host fd (len - got.length) s
        (interrupt (.sockRead fd (len - got.length)) l)
      exact (Program.runStruck_zero hstruck).trans rfl
    | succ n =>
      have hpos := List.length_pos_iff.mpr hne
      have hrounds := h.rounds
      have hnext : Arrives len rounds (got ++ chunk.val) l₁ := by
        refine ⟨hrecvs, ?_, ?_⟩
        · rw [List.length_append]
          omega
        · rw [List.length_append]
          omega
      rw [Program.callAt_succ hexec] at hcall
      rw [struck, Program.runStruck_succ hexec]
      change Program.callAt _ n (if chunk.val = [] then _ else _) _ = _ at hcall
      change ∃ l', struck host n (if chunk.val = [] then _ else _) _ = _ ∧ _
      rw [if_neg hne] at hcall ⊢
      obtain ⟨l', hrun, hsent⟩ := ih hnext n hcall
      exact ⟨l', hrun, hsent.trans hhush.sent⟩

theorem shaped_longer {H : UInt16 → UInt32 → Prop} {p : Prog Unit} (hp : Shaped H p)
    (hl : Steady l) (h : p.run (exec host) (s, l) = some ((), s', l')) :
    l.sent.length < l'.sent.length := by
  obtain ⟨opcode, len, us, -, hpre⟩ := shaped_answers hp hl h
  have hle := hpre.length_le
  rw [List.length_append, serializeHeader_length, nervfsHeaderSize] at hle
  omega

/-- A job is dropped when its payload does not arrive, and answered otherwise. -/
theorem recvFull_struck {f : Option Bytes → Prog Unit} {fd len : ℕ}
    (hnone : f none = sockClose fd)
    (hsome : ∀ got, len ≤ got.length → Shaped (fun _ _ => True) (f (some got)))
    (n : ℕ) {c : (e : Call) × Reply e} {s₁' s₂' : Server} {l₁' l₂' : Local} (hl : Steady l)
    (harrives : Arrives len len [] l)
    (h : (recvFull fd len >>= f).run (exec host) (s, l) = some ((), s₁', l₁'))
    (hcall : (recvFull fd len >>= f).callAt (exec host) n (s, l) = some c)
    (hspoils : Spoils c.1 c.2)
    (h₂ : struck host n (recvFull fd len >>= f) (s, l) = some ((), s₂', l₂')) :
    l₂'.sent ≠ l₁'.sent := by
  obtain ⟨got, l₁, hrun, hgot, hhush⟩ := recvLoop_runs host fd s harrives
  rw [Program.run_bind, show (recvFull fd len).run _ _ = _ from hrun] at h
  have hanswer : (f (some got)).run (exec host) (s, l₁) = some ((), s₁', l₁') := h
  have hsteady := hhush.steady hl
  rcases Program.struck_bind signal f n hrun
    with hfirst | hsecond
  · obtain ⟨c', hc, -, hstruck⟩ := hfirst
    obtain ⟨l₂, hfail, hsent⟩ := recvLoop_struck fd s harrives n hc
    have hdrop : (f none).run (exec host) (s, l₂) = some ((), s₂', l₂') := by
      have hbind := hstruck.symm.trans h₂
      rw [show Program.runStruck _ _ n _ _ = _ from hfail] at hbind
      exact hbind
    rw [hnone] at hdrop
    have hclosed : l₂' = l₂ := by
      cases hdrop
      rfl
    have hlonger := shaped_longer (hsome got hgot) hsteady hanswer
    intro heq
    rw [← heq, hclosed, hsent, hhush.sent] at hlonger
    exact Nat.lt_irrefl _ hlonger
  · obtain ⟨k, hcall', hstruck⟩ := hsecond
    exact shaped_struck (hsome got hgot) k hsteady hanswer (hcall'.symm.trans hcall) hspoils
      (hstruck.symm.trans h₂)

/-- A signal that spoils a call of a worker shows in the response. -/
theorem processJob_struck {job : Job} (n : ℕ) {c : (e : Call) × Reply e} {s₁' s₂' : Server}
    {l₁' l₂' : Local} (hl : Delivered job l)
    (h : (processJob host.root job).run (exec host) (s, l) = some ((), s₁', l₁'))
    (hcall : (processJob host.root job).callAt (exec host) n (s, l) = some c)
    (hspoils : Spoils c.1 c.2)
    (h₂ : struck host n (processJob host.root job) (s, l) = some ((), s₂', l₂')) :
    l₂'.sent ≠ l₁'.sent := by
  have hserve := fun netStart payload =>
    dispatch_shaped any_header job.clientFd host.root job.header payload netStart
  have hclock : exec host .clockGettime (s, l) =
      some (l.outcomes.clocks.headD ⟨0, 0⟩, s, l.popClock) := exec_own rfl s l
  have hsteady : Steady l.popClock := ⟨hl.steady.delivers, hl.steady.mallocs⟩
  unfold processJob at h hcall h₂
  simp only [clockGettime, invoke, Program.perform_bind] at h hcall h₂
  rw [Program.run_call_of hclock] at h
  cases n with
  | zero =>
    rw [Program.callAt_zero hclock] at hcall
    cases hcall
    exact hspoils.elim
  | succ n =>
    rw [Program.callAt_succ hclock] at hcall
    rw [struck, Program.runStruck_succ hclock] at h₂
    split at h
    · next hpos =>
      rw [if_pos hpos] at hcall h₂
      have hmalloc := exec_malloc host job.header.payloadLen.toNat s hsteady
      simp only [malloc, invoke, Program.perform_bind] at h hcall h₂
      rw [Program.run_call_of hmalloc] at h
      cases n with
      | zero =>
        rw [Program.callAt_zero hmalloc] at hcall
        cases hcall
        exact hspoils.elim
      | succ n =>
        rw [Program.callAt_succ hmalloc] at hcall
        rw [Program.runStruck_succ hmalloc] at h₂
        rw [if_pos rfl] at h hcall h₂
        refine recvFull_struck (f := _) rfl ?_ n ((hushed_malloc _).steady hsteady)
          ⟨hl.recvs, ?_, ?_⟩ h hcall hspoils h₂
        · intro got hgot
          dsimp only
          rw [if_neg (Nat.not_lt.mpr hgot)]
          exact hserve _ got
        · rw [List.length_nil, Nat.zero_add]
          exact hl.whole
        · rw [List.length_nil, Nat.zero_add]
    · next hzero =>
      rw [if_neg hzero] at hcall h₂
      exact shaped_struck (hserve _ []) n hsteady h hcall hspoils h₂

end Sent

/-- A signal to the worker of a request is not noticed when it spoils none of its calls.
When nothing else fails, that is also the only case: a read that it spoils leaves no
response, the lock of an upload an error, and a write a response that is cut short. -/
theorem drained_iff (host : Host) (job : Job) (s : Server) (l : Local) (n : ℕ) :
    (Undisturbed host job s l n → serveInterrupted host job s l n = serve host job s l) ∧
    (Delivered job l → serve host job s l ≠ none →
      (serveInterrupted host job s l n = serve host job s l ↔ Undisturbed host job s l n)) := by
  have hsame : Undisturbed host job s l n →
      serveInterrupted host job s l n = serve host job s l := fun h =>
    congrArg (Option.map observed)
      (struck_of_undisturbed (processJob_heedless host.root job) n h)
  refine ⟨hsame, fun hl hreturns => ⟨fun heq c hc hspoils => ?_, hsame⟩⟩
  obtain ⟨seen, hseen⟩ := Option.ne_none_iff_exists'.mp hreturns
  rw [hseen] at heq
  obtain ⟨⟨_, s₁', l₁'⟩, hrun, hobs⟩ := Option.map_eq_some_iff.mp hseen
  obtain ⟨⟨_, s₂', l₂'⟩, hstruck, hobs₂⟩ := Option.map_eq_some_iff.mp heq
  apply processJob_struck n hl hrun hc hspoils hstruck
  exact congrArg Prod.snd (hobs₂.trans hobs.symm)

/-- An upload, whose payload is read when the signal comes. -/
def sampleJob : Job where
  clientFd := 5
  header := responseHeader opReqUpload 13 0

def samplePayload : Local := { input := uploadPayload [0x61] [1, 2] }

theorem samplePayload_delivered : Delivered sampleJob samplePayload :=
  ⟨⟨nofun, nofun⟩, nofun, by decide⟩

theorem sampleJob_served :
    (serve sampleHost sampleJob {} samplePayload).map
      (fun seen => ((seen.1 [0x61]).current, seen.2)) =
      some (some ⟨[1, 2], 0o644⟩, frame opRespOk 0 (metricsBody 0 0 0)) := rfl

theorem sampleJob_dropped :
    (serveInterrupted sampleHost sampleJob {} samplePayload 2).map
      (fun seen => ((seen.1 [0x61]).current, seen.2)) = some (none, []) := rfl

theorem drained_iff_sample :
    serveInterrupted sampleHost sampleJob {} samplePayload 2 =
      serve sampleHost sampleJob {} samplePayload ↔
      Undisturbed sampleHost sampleJob {} samplePayload 2 := by
  apply (drained_iff sampleHost sampleJob {} samplePayload 2).2 samplePayload_delivered
  intro hnone
  have hserved := sampleJob_served
  rw [hnone] at hserved
  cases hserved

/-- The upload that is lost to the signal would have been stored. -/
theorem signal_loses_upload :
    Delivered sampleJob samplePayload ∧
      serveInterrupted sampleHost sampleJob {} samplePayload 2 ≠
        serve sampleHost sampleJob {} samplePayload := by
  refine ⟨samplePayload_delivered, fun heq => ?_⟩
  have hdropped := sampleJob_dropped
  rw [heq, sampleJob_served] at hdropped
  cases hdropped

end NervFS.Signals
