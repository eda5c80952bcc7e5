import NervFS.Kernel
import NervFS.ThreadPool
import NervFS.Lib.DescriptorTable
import NervFS.Lib.Ledger

/-!
The server process as a whole: the accept loop with its slots, the clients, the table
of descriptors, and the workers with what is left of their jobs. The loop thread only
shares the table and the pool with the workers, so its runs over its own variables are
one step up to the next system call or the next slot. Where the source leaves a set of
descriptors through a number of 1024 or more, the system is stuck.
-/
namespace NervFS.SelectLoop

open Programs Transitions DescriptorTable Ledger Calls Protocol Kernel ThreadPool

def nervfsMaxClients : ℕ := 1024

/-- `FD_SETSIZE`. -/
def fdSetSize : ℕ := 1024

/-- The listener is opened after the standard streams. -/
def listenFd : ℕ := 3

/-- What a descriptor refers to. Connections are numbered as they are accepted; a file
or a directory is open in one worker. -/
inductive Object (W : Type)
  | standard
  | listener
  | conn (c : ℕ)
  | file (w : W)
  deriving DecidableEq

/-- The received bytes that nobody has read yet, and whether the peer has closed. -/
structure Socket where
  buffered : Bytes := []
  ended : Bool := false
  deriving DecidableEq

/-- A read returns at once. -/
def Socket.Readable (k : Socket) : Prop := k.buffered ≠ [] ∨ k.ended = true

instance (k : Socket) : Decidable k.Readable := inferInstanceAs (Decidable (_ ∨ _))

/-- How many bytes a read of up to `len` takes when there are enough. -/
def amount (t : Transfer) (len : ℕ) : ℕ :=
  match t with
  | .short n => min (max 1 n) len
  | _ => len

theorem amount_le (t : Transfer) (len : ℕ) : amount t len ≤ len := by
  unfold amount
  split
  · exact Nat.min_le_right ..
  · exact le_rfl

/-- `handle_client_readable` up to its hand-off to the pool, with the header for the
return value 2 and `none` for the return value 1. -/
def handleClientReadable (clientFd : ℕ) : Prog (Option Header) := do
  match ← recvFull clientFd nervfsHeaderSize with
  | none => return none
  | some got =>
    if got.length < nervfsHeaderSize then return none
    else return parseHeader got

/-- Where `net_run_select_loop` stands, and `main` after it. `ready` is the set that
`select` returned, `i` the slot in turn, and `d` a descriptor in a local variable. -/
inductive Point
  | top
  | watch
  | select
  | listener (ready : List ℕ)
  | accept (ready : List ℕ)
  | place (ready : List ℕ) (d : Handle)
  | reject (ready : List ℕ) (d : Handle)
  | scan (ready : List ℕ) (i : ℕ)
  | read (ready : List ℕ) (i : ℕ) (d : Handle) (p : Prog (Option Header))
  | submit (ready : List ℕ) (i : ℕ) (d : Handle) (header : Header)
  | discard (ready : List ℕ) (i : ℕ) (d : Handle)
  | clear (ready : List ℕ) (i : ℕ)
  | sweep (i : ℕ)
  | shutdown
  | join
  | stop
  | done

/-- `clientFds` is -1 where it is `none`, and `work` is what a worker has left to do of
its job. Clients have `connected`, the first of them are `accepted`. The last three
fields are history, as is the token of a handle, the connection that `accept` returned
the number for: the descriptors handed to the pool, the connections closed, and those
for which a request was dispatched. -/
structure State (W : Type) where
  point : Point
  running : Bool
  clientFds : ℕ → Option Handle
  table : Table (Object W)
  sockets : ℕ → Socket
  connected : ℕ
  accepted : ℕ
  pool : ThreadPool.State W
  work : W → Prog Unit
  handed : List Handle
  closed : List ℕ
  dispatched : List ℕ

/-- What is open to the kernel, the allocator and the scheduler in one step of the loop:
whether the call succeeds, how much a read moves, the address of a new job, and the
workers that the signal wakes. -/
structure Choice (W : Type) where
  ok : Bool := true
  transfer : Transfer := .all
  malloc : Option ℕ := none
  signalled : List W := []

inductive Label (W : Type)
  | connect
  | arrive (c : ℕ) (bytes : Bytes)
  | hangup (c : ℕ)
  | interrupt
  | loop (choice : Choice W)
  | test (w : W)
  | wake (w : W)
  | call (w : W) (transfer : Transfer) (reply : (e : Call) → Reply e)
  | finish (w : W)

def start (W : Type) : State W where
  point := .top
  running := true
  clientFds _ := none
  table := [some .standard, some .standard, some .standard, some .listener]
  sockets _ := {}
  connected := 0
  accepted := 0
  pool := ThreadPool.start W
  work _ := .ret ()
  handed := []
  closed := []
  dispatched := []

section Steps
variable {W : Type}

/-- `close`, which counts as a close of the connection that the number refers to. -/
def State.close (s : State W) (n : ℕ) : State W :=
  { s with
    table := s.table.release n
    closed := match s.table.get n with
      | some (.conn c) => s.closed ++ [c]
      | _ => s.closed }

/-- The lowest free number goes to a file that a worker opens. -/
def State.openFile (s : State W) (w : W) : State W :=
  { s with table := s.table.alloc (.file w) }

/-- `read` on a socket. It blocks while there is nothing to deliver. -/
def State.receive (s : State W) (fd len : ℕ) (t : Transfer) :
    Option (Option { bytes : Bytes // bytes.length ≤ len } × State W) :=
  match t, s.table.get fd with
  | .error, _ => some (none, s)
  | t, some (.conn c) =>
    if (s.sockets c).buffered = [] then
      if (s.sockets c).ended then some (some ⟨[], Nat.zero_le _⟩, s) else none
    else
      let n := amount t len
      let k := { s.sockets c with buffered := (s.sockets c).buffered.drop n }
      some (some ⟨(s.sockets c).buffered.take n,
          (List.length_take_le ..).trans (amount_le t len)⟩,
        { s with sockets := Function.update s.sockets c k })
  | _, _ => some (none, s)

/-- A call of a worker. What the kernel keeps elsewhere is left to the reply. -/
def State.perform (s : State W) (w : W) (ticket : ℕ) (t : Transfer)
    (reply : (e : Call) → Reply e) : (e : Call) → Option (Reply e × State W)
  | .sockRead fd len => s.receive fd len t
  | .sockClose fd => some ((), s.close fd)
  | .close fd => some ((), s.close fd.num)
  | .closedir dir => some ((), s.close dir.num)
  | .openWrite path =>
    match reply (.openWrite path) with
    | none => some (none, s)
    | some fd => some (some { fd with num := s.table.lowest }, s.openFile w)
  | .openRead path =>
    match reply (.openRead path) with
    | none => some (none, s)
    | some fd => some (some { fd with num := s.table.lowest }, s.openFile w)
  | .opendir =>
    match reply .opendir with
    | none => some (none, s)
    | some (_, names) => some (some (⟨s.table.lowest⟩, names), s.openFile w)
  | .dispatch opcode =>
    some (reply (.dispatch opcode), { s with
      dispatched := s.dispatched ++ (s.handed[ticket]?.map Handle.token).toList })
  | e => some (reply e, s)

/-- The numbers in the set that the loop builds for `select`. -/
def State.watched (s : State W) : List ℕ :=
  listenFd :: (List.range nervfsMaxClients).filterMap fun i => (s.clientFds i).map Handle.num

/-- What `select` reports as readable. -/
def State.isReady (s : State W) (n : ℕ) : Bool :=
  match s.table.get n with
  | some (.conn c) => decide (s.sockets c).Readable
  | some .listener => decide (s.accepted < s.connected)
  | some _ => true
  | none => false

/-- The first free slot. -/
def State.freeSlot (s : State W) : Option ℕ :=
  (List.range nervfsMaxClients).find? fun i => (s.clientFds i).isNone

variable [DecidableEq W] [Fintype W]

/-- The next step of the loop thread from each point; `none` where it blocks or its
behaviour is undefined. -/
def loopNext (s : State W) (c : Choice W) : Option (State W) :=
  match s.point with
  | .top => some { s with point := if s.running then .watch else .sweep 0 }
  | .watch =>
    if ∀ n ∈ s.watched, n < fdSetSize then some { s with point := .select } else none
  | .select =>
    -- A closed number in the set makes the call fail, as a signal does.
    if c.ok ∧ ∀ n ∈ s.watched, (s.table.get n).isSome then
      match s.watched.filter s.isReady with
      | [] => none
      | ready => some { s with point := .listener ready }
    else some { s with point := .top }
  | .listener ready =>
    some { s with point := if listenFd ∈ ready then .accept ready else .scan ready 0 }
  | .accept ready =>
    if c.ok then
      if s.accepted < s.connected then
        some { s with
          point := .place ready ⟨s.table.lowest, s.accepted⟩
          table := s.table.alloc (.conn s.accepted)
          accepted := s.accepted + 1 }
      else none
    else some { s with point := .scan ready 0 }
  | .place ready d =>
    match s.freeSlot with
    | none => some { s with point := .reject ready d }
    | some slot =>
      some { s with
        point := .scan ready 0
        clientFds := Function.update s.clientFds slot (some d) }
  | .reject ready d => some { s.close d.num with point := .scan ready 0 }
  | .scan ready i =>
    if i < nervfsMaxClients then
      match s.clientFds i with
      | none => some { s with point := .scan ready (i + 1) }
      | some d =>
        if d.num < fdSetSize then
          if d.num ∈ ready then
            some { s with point := .read ready i d (handleClientReadable d.num) }
          else some { s with point := .scan ready (i + 1) }
        else none
    else some { s with point := .top }
  | .read ready i d p =>
    match p with
    | .ret none => some { s with point := .discard ready i d }
    | .ret (some header) => some { s with point := .submit ready i d header }
    | .call (.sockRead fd len) k =>
      (s.receive fd len c.transfer).map fun q => { q.2 with point := .read ready i d (k q.1) }
    | _ => none
  | .submit ready i d header =>
    match c.malloc with
    -- `threadpool_submit` closes the descriptor itself, and the slot is cleared as well.
    | none => some { s with point := .discard ready i d }
    | some addr =>
      (threadpoolSubmit s.pool ⟨d.num, header⟩ (some addr) c.signalled).map fun pool =>
        { s with pool := pool, handed := s.handed ++ [d], point := .clear ready i }
  | .discard ready i d => some { s.close d.num with point := .clear ready i }
  | .clear ready i =>
    some { s with
      point := .scan ready (i + 1)
      clientFds := Function.update s.clientFds i none }
  | .sweep i =>
    if i < nervfsMaxClients then
      match s.clientFds i with
      | none => some { s with point := .sweep (i + 1) }
      | some d =>
        some { s.close d.num with
          point := .sweep (i + 1)
          clientFds := Function.update s.clientFds i none }
    else some { s with point := .shutdown }
  | .shutdown => some { s with pool := threadpoolShutdown s.pool, point := .join }
  | .join =>
    if ∀ w, s.pool.worker w = .exited then some { s with point := .stop } else none
  | .stop => some { s.close listenFd with point := .done }
  | .done => none

/-- What a worker that left the lock goes on with, its job read through its pointer. -/
def jobOf (root : Bytes) (pool : ThreadPool.State W) (w : W) : Prog Unit :=
  match pool.worker w with
  | .busy addr _ =>
    match pool.queue.heap addr with
    | some node => processJob root node.val
    | none => .stuck
  | _ => .ret ()

def workerCall (s : State W) (w : W) (t : Transfer) (reply : (e : Call) → Reply e) :
    Option (State W) :=
  match s.pool.worker w, s.work w with
  | .busy _ ticket, .call e k =>
    (s.perform w ticket t reply e).map fun q =>
      { q.2 with work := Function.update q.2.work w (k q.1) }
  | _, _ => none

def next (root : Bytes) (s : State W) : Label W → Option (State W)
  | .connect => some { s with connected := s.connected + 1 }
  | .arrive c bytes =>
    if c < s.connected ∧ (s.sockets c).ended = false then
      let k := { s.sockets c with buffered := (s.sockets c).buffered ++ bytes }
      some { s with sockets := Function.update s.sockets c k }
    else none
  | .hangup c =>
    if c < s.connected then
      let k := { s.sockets c with ended := true }
      some { s with sockets := Function.update s.sockets c k }
    else none
  | .interrupt => some { s with running := false }
  | .loop choice => loopNext s choice
  | .test w =>
    (ThreadPool.next s.pool (.test w)).map fun pool =>
      { s with pool := pool, work := Function.update s.work w (jobOf root pool w) }
  | .wake w => (ThreadPool.next s.pool (.wake w)).map fun pool => { s with pool := pool }
  | .call w t reply => workerCall s w t reply
  | .finish w =>
    match s.work w with
    | .ret _ => (ThreadPool.next s.pool (.finish w)).map fun pool => { s with pool := pool }
    | _ => none

abbrev Step (root : Bytes) : State W → Label W → State W → Prop := Computes (next root)

end Steps

section Cases
variable {W : Type} {s s' : State W}

/-- The moves of the loop thread that change nothing but where it stands. -/
inductive Goes (s : State W) : Point → Point → Prop
  | run : Goes s .top .watch
  | leave : Goes s .top (.sweep 0)
  | watch (h : ∀ n ∈ s.watched, n < fdSetSize) : Goes s .watch .select
  | selected : Goes s .select (.listener (s.watched.filter s.isReady))
  | failed : Goes s .select .top
  | incoming {ready} (h : listenFd ∈ ready) : Goes s (.listener ready) (.accept ready)
  | quiet {ready} : Goes s (.listener ready) (.scan ready 0)
  | refused {ready} : Goes s (.accept ready) (.scan ready 0)
  | full {ready d} (h : s.freeSlot = none) : Goes s (.place ready d) (.reject ready d)
  | skip {ready i} (h : ∀ d ∈ s.clientFds i, d.num ∉ ready) :
      Goes s (.scan ready i) (.scan ready (i + 1))
  | again {ready i} : Goes s (.scan ready i) .top
  | bad {ready i d} : Goes s (.read ready i d (.ret none)) (.discard ready i d)
  | header {ready i d header} :
      Goes s (.read ready i d (.ret (some header))) (.submit ready i d header)
  | noMemory {ready i d header} : Goes s (.submit ready i d header) (.discard ready i d)
  | empty {i} (h : s.clientFds i = none) : Goes s (.sweep i) (.sweep (i + 1))
  | swept {i} (h : nervfsMaxClients ≤ i) : Goes s (.sweep i) .shutdown
  | joined (h : ∀ w, s.pool.worker w = .exited) : Goes s .join .stop

/-- The steps of the loop thread, by what they change. -/
inductive LoopStep [DecidableEq W] [Fintype W] (s : State W) (c : Choice W) : State W → Prop
  | go {p} (h : Goes s s.point p) : LoopStep s c { s with point := p }
  | accept {ready} (hp : s.point = .accept ready) :
      LoopStep s c { s with
        point := .place ready ⟨s.table.lowest, s.accepted⟩
        table := s.table.alloc (.conn s.accepted)
        accepted := s.accepted + 1 }
  | place {ready d slot} (hp : s.point = .place ready d) (hslot : s.freeSlot = some slot) :
      LoopStep s c { s with
        point := .scan ready 0
        clientFds := Function.update s.clientFds slot (some d) }
  | reject {ready d} (hp : s.point = .reject ready d) :
      LoopStep s c { s.close d.num with point := .scan ready 0 }
  | pick {ready i d} (hp : s.point = .scan ready i) (hi : i < nervfsMaxClients)
      (hd : s.clientFds i = some d) (hready : d.num ∈ ready) :
      LoopStep s c { s with point := .read ready i d (handleClientReadable d.num) }
  | receive {ready i d fd len k q} (hp : s.point = .read ready i d (.call (.sockRead fd len) k))
      (hq : s.receive fd len c.transfer = some q) :
      LoopStep s c { q.2 with point := .read ready i d (k q.1) }
  | submit {ready i d header addr pool} (hp : s.point = .submit ready i d header)
      (hpool : threadpoolSubmit s.pool ⟨d.num, header⟩ (some addr) c.signalled = some pool) :
      LoopStep s c { s with
        pool := pool
        handed := s.handed ++ [d]
        point := .clear ready i }
  | discard {ready i d} (hp : s.point = .discard ready i d) :
      LoopStep s c { s.close d.num with point := .clear ready i }
  | clear {ready i} (hp : s.point = .clear ready i) :
      LoopStep s c { s with
        point := .scan ready (i + 1)
        clientFds := Function.update s.clientFds i none }
  | sweep {i d} (hp : s.point = .sweep i) (hd : s.clientFds i = some d) :
      LoopStep s c { s.close d.num with
        point := .sweep (i + 1)
        clientFds := Function.update s.clientFds i none }
  | shutdown (hp : s.point = .shutdown) :
      LoopStep s c { s with pool := threadpoolShutdown s.pool, point := .join }
  | stop (hp : s.point = .stop) : LoopStep s c { s.close listenFd with point := .done }

section LoopCases
variable [DecidableEq W] [Fintype W] {c : Choice W}

theorem loopStep_of_goes {p q : Point} (hp : s.point = p) (hg : Goes s p q) :
    LoopStep s c { s with point := q } :=
  .go (hp ▸ hg)

theorem scan_cases {ready : List ℕ} {i : ℕ} (hp : s.point = .scan ready i)
    (h : loopNext s c = some s') : LoopStep s c s' := by
  simp only [loopNext, hp] at h
  split at h
  · next hi =>
    split at h
    · next hnone =>
      cases h
      exact loopStep_of_goes hp (.skip (by rw [hnone]; exact nofun))
    · next d hd =>
      obtain ⟨-, h⟩ := Option.ite_none_right_eq_some.mp h
      split at h
      · next hin =>
        cases h
        exact .pick hp hi hd hin
      · next hout =>
        cases h
        refine loopStep_of_goes hp (.skip fun d' hd' => ?_)
        rw [hd] at hd'
        exact Option.some.inj hd' ▸ hout
  · cases h
    exact loopStep_of_goes hp .again

theorem read_cases {ready : List ℕ} {i : ℕ} {d : Handle} {p : Prog (Option Header)}
    (hp : s.point = .read ready i d p) (h : loopNext s c = some s') : LoopStep s c s' := by
  simp only [loopNext, hp] at h
  split at h
  · cases h
    exact loopStep_of_goes hp .bad
  · cases h
    exact loopStep_of_goes hp .header
  · obtain ⟨q, hq, rfl⟩ := Option.map_eq_some_iff.mp h
    exact .receive hp hq
  · cases h

theorem sweep_cases {i : ℕ} (hp : s.point = .sweep i) (h : loopNext s c = some s') :
    LoopStep s c s' := by
  simp only [loopNext, hp] at h
  split at h
  · split at h
    · next hnone =>
      cases h
      exact loopStep_of_goes hp (.empty hnone)
    · next d hd =>
      cases h
      exact .sweep hp hd
  · next hi =>
    cases h
    exact loopStep_of_goes hp (.swept (not_lt.mp hi))

theorem loop_cases (h : loopNext s c = some s') : LoopStep s c s' := by
  cases hp : s.point with
  | scan ready i => exact scan_cases hp h
  | read ready i d p => exact read_cases hp h
  | sweep i => exact sweep_cases hp h
  | top =>
    simp only [loopNext, hp] at h
    cases h
    split
    · exact loopStep_of_goes hp .run
    · exact loopStep_of_goes hp .leave
  | watch =>
    simp only [loopNext, hp] at h
    obtain ⟨hwatch, h⟩ := Option.ite_none_right_eq_some.mp h
    cases h
    exact loopStep_of_goes hp (.watch hwatch)
  | select =>
    simp only [loopNext, hp] at h
    split at h
    · split at h
      · cases h
      · cases h
        exact loopStep_of_goes hp .selected
    · cases h
      exact loopStep_of_goes hp .failed
  | listener ready =>
    simp only [loopNext, hp] at h
    cases h
    split
    · next hin => exact loopStep_of_goes hp (.incoming hin)
    · exact loopStep_of_goes hp .quiet
  | accept ready =>
    simp only [loopNext, hp] at h
    split at h
    · obtain ⟨-, h⟩ := Option.ite_none_right_eq_some.mp h
      cases h
      exact .accept hp
    · cases h
      exact loopStep_of_goes hp .refused
  | place ready d =>
    simp only [loopNext, hp] at h
    split at h
    · next hfull =>
      cases h
      exact loopStep_of_goes hp (.full hfull)
    · next slot hslot =>
      cases h
      exact .place hp hslot
  | reject ready d =>
    simp only [loopNext, hp] at h
    cases h
    exact .reject hp
  | submit ready i d header =>
    simp only [loopNext, hp] at h
    split at h
    · cases h
      exact loopStep_of_goes hp .noMemory
    · obtain ⟨pool, hpool, rfl⟩ := Option.map_eq_some_iff.mp h
      exact .submit hp hpool
  | discard ready i d =>
    simp only [loopNext, hp] at h
    cases h
    exact .discard hp
  | clear ready i =>
    simp only [loopNext, hp] at h
    cases h
    exact .clear hp
  | shutdown =>
    simp only [loopNext, hp] at h
    cases h
    exact .shutdown hp
  | join =>
    simp only [loopNext, hp] at h
    obtain ⟨hall, h⟩ := Option.ite_none_right_eq_some.mp h
    cases h
    exact loopStep_of_goes hp (.joined hall)
  | stop =>
    simp only [loopNext, hp] at h
    cases h
    exact .stop hp
  | done =>
    simp only [loopNext, hp] at h
    cases h

end LoopCases

end Cases

end NervFS.SelectLoop
