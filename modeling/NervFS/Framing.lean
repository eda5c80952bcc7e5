import NervFS.Transfers
import NervFS.Lib.Transitions

/-!
A sender and a receiver on one connection. The sender passes a list of buffers to
`send_full` and may then close its end; the receiver asks `recv_full` for a list of
lengths. Writes and reads move any positive number of bytes and interleave as they like,
and still every receive gets the bytes that come next and leaves all others alone.
-/
namespace NervFS.Framing

open Programs Calls Protocol Transfers Transitions

/-- What is left of the sender's program, the bytes that are written and not yet read, whether
the sender has closed, the receive that is under way, those to come, and the results so far. -/
structure Link where
  sender : Prog Unit
  flight : Bytes := []
  closed : Bool := false
  receiver : Option (Prog (Option Bytes)) := none
  pending : List ℕ
  results : List (Option Bytes) := []

inductive Move
  | write (bytes : Bytes)
  | close
  | receive
  | read (bytes : Bytes)
  | readEnd
  | complete

def sendAll (fd : ℕ) : List Bytes → Prog Unit
  | [] => return
  | buf :: buffers => do
    let _ ← sendFull fd (.memory buf)
    sendAll fd buffers

def start (tx : ℕ) (buffers : List Bytes) (lens : List ℕ) : Link :=
  { sender := sendAll tx buffers, pending := lens }

/-- A read blocks while nothing is under way, unless the sender has closed. -/
inductive Step (tx rx : ℕ) : Link → Move → Link → Prop
  | write {c : Link} {buf : Bytes}
    {k : Option { n : ℕ // 0 < n ∧ n ≤ (Buffer.memory buf).length } → Prog Unit}
    (h : c.sender = .call (.sockWrite tx (.memory buf)) k)
    (n : { n : ℕ // 0 < n ∧ n ≤ (Buffer.memory buf).length }) :
    Step tx rx c (.write (buf.take n.val))
      { c with sender := k (some n), flight := c.flight ++ buf.take n.val }
  | close {c : Link} (h : c.sender = .ret ()) (hopen : c.closed = false) :
    Step tx rx c .close { c with closed := true }
  | receive {c : Link} {len : ℕ} {lens : List ℕ} (h : c.receiver = none)
    (hpending : c.pending = len :: lens) :
    Step tx rx c .receive { c with receiver := some (recvFull rx len), pending := lens }
  | read {c : Link} {len n : ℕ}
    {k : Option { bytes : Bytes // bytes.length ≤ len } → Prog (Option Bytes)}
    (h : c.receiver = some (.call (.sockRead rx len) k)) (hpos : 0 < n) (hlen : n ≤ len)
    (havail : n ≤ c.flight.length) (hn : (c.flight.take n).length ≤ len) :
    Step tx rx c (.read (c.flight.take n))
      { c with receiver := some (k (some ⟨c.flight.take n, hn⟩)), flight := c.flight.drop n }
  | readEnd {c : Link} {len : ℕ}
    {k : Option { bytes : Bytes // bytes.length ≤ len } → Prog (Option Bytes)}
    (h : c.receiver = some (.call (.sockRead rx len) k)) (hempty : c.flight = [])
    (hclosed : c.closed = true) :
    Step tx rx c .readEnd { c with receiver := some (k (some ⟨[], Nat.zero_le len⟩)) }
  | complete {c : Link} {r : Option Bytes} (h : c.receiver = some (.ret r)) :
    Step tx rx c .complete { c with receiver := none, results := c.results ++ [r] }

/-- The bytes that the receiver has taken in a run. -/
def consumed (ls : List Move) : Bytes :=
  ls.flatMap fun
    | .read bytes => bytes
    | _ => []

/-- What a receive of `len` bytes gives when `left` is to come: the next `len` bytes, or all
there is when the stream ends before. -/
def Delivers (left : Bytes) (len : ℕ) (r : Option Bytes) : Prop :=
  ∃ got, r = some got ∧ (len ≤ left.length → got.length = len ∧ got <+: left) ∧
    (left.length < len → got = left)

def slices : List ℕ → Bytes → List Bytes
  | [], _ => []
  | len :: lens, stream => stream.take len :: slices lens (stream.drop len)

theorem slices_length (lens : List ℕ) (stream : Bytes) :
    (slices lens stream).length = lens.length := by
  induction lens generalizing stream with
  | nil => rfl
  | cons len lens ih => exact congrArg Nat.succ (ih _)

theorem slices_snoc (lens : List ℕ) (len : ℕ) (stream : Bytes) :
    slices (lens ++ [len]) stream = slices lens stream ++ [(stream.drop lens.sum).take len] := by
  induction lens generalizing stream with
  | nil => rfl
  | cons l lens ih =>
    rw [List.cons_append, slices, slices, ih, List.drop_drop, List.sum_cons, List.cons_append]

theorem delivers_take (left : Bytes) (len : ℕ) : Delivers left len (some (left.take len)) := by
  refine ⟨left.take len, rfl, ?_, ?_⟩
  · intro hle
    exact ⟨List.length_take_of_le hle, List.take_prefix ..⟩
  · intro hlt
    exact List.take_of_length_le (Nat.le_of_lt hlt)

theorem slices_delivers (before : List ℕ) (len : ℕ) (after : List ℕ) (stream : Bytes) :
    ∃ bytes, (slices (before ++ len :: after) stream)[before.length]? = some bytes ∧
      Delivers (stream.drop before.sum) len (some bytes) := by
  induction before generalizing stream with
  | nil => exact ⟨_, rfl, delivers_take _ _⟩
  | cons l before ih =>
    obtain ⟨bytes, hget, hdel⟩ := ih (stream.drop l)
    rw [List.drop_drop] at hdel
    exact ⟨bytes, hget, hdel⟩

theorem sends_sendAll (tx : ℕ) (buffers : List Bytes) :
    Sends tx (sendAll tx buffers) buffers.flatten () := by
  induction buffers with
  | nil => exact Sends.ret _
  | cons buf buffers ih => exact (sends_sendFull tx buf).bind ih

/-- How far a receive is from its completion. -/
def phase : Option (Prog (Option Bytes)) → ℕ
  | none => 0
  | some p => if p.next? = none then 1 else 2

theorem phase_le (p : Option (Prog (Option Bytes))) : phase p ≤ 2 := by
  unfold phase
  split
  · omega
  · split
    · omega
    · omega

/-- An upper bound on the moves that are left. -/
def movesLeft (unsent : Bytes) (c : Link) : ℕ :=
  2 * unsent.length + c.flight.length + 3 * c.pending.length + phase c.receiver +
    (if c.closed = true then 0 else 1)

section Invariant
variable {tx rx : ℕ} {stream unsent : Bytes} {lens taken : List ℕ} {ls : List Move} {c c' : Link}
  {a : Move} {budget : ℕ}

/-- The stream is what was consumed, what is under way and what is unsent; the receives of the
lengths `taken` are complete. -/
structure Account (tx rx : ℕ) (stream : Bytes) (lens : List ℕ) (budget : ℕ) (unsent : Bytes)
    (taken : List ℕ) (ls : List Move) (c : Link) : Prop where
  sends : Sends tx c.sender unsent ()
  closed : c.closed = true → unsent = []
  whole : consumed ls ++ (c.flight ++ unsent) = stream
  results : c.results = (slices taken stream).map some
  idle : c.receiver = none → lens = taken ++ c.pending ∧ consumed ls = stream.take taken.sum
  busy : ∀ p, c.receiver = some p → ∃ len, lens = taken ++ len :: c.pending ∧
    Receives rx p (c.flight ++ unsent) ((stream.drop taken.sum).take len)
      (stream.drop (taken.sum + len))
  spent : ls.length + movesLeft unsent c ≤ budget

theorem consumed_snoc (ls : List Move) (a : Move) :
    consumed (ls ++ [a]) = consumed ls ++ consumed [a] := List.flatMap_append

theorem Account.write {buf : Bytes}
    {k : Option { n : ℕ // 0 < n ∧ n ≤ (Buffer.memory buf).length } → Prog Unit}
    (h : Account tx rx stream lens budget unsent taken ls c)
    (hcall : c.sender = .call (.sockWrite tx (.memory buf)) k)
    (n : { n : ℕ // 0 < n ∧ n ≤ (Buffer.memory buf).length }) :
    Account tx rx stream lens budget (unsent.drop n.val) taken
      (ls ++ [.write (buf.take n.val)])
      { c with sender := k (some n), flight := c.flight ++ buf.take n.val } := by
  have hsends := h.sends
  rw [hcall] at hsends
  cases hsends with
  | write hne hbuf hk =>
    have hpos := n.property.1
    have hle : n.val ≤ buf.length := n.property.2
    have hall : n.val ≤ unsent.length := hle.trans hbuf.length_le
    have htake : buf.take n.val = unsent.take n.val := by
      obtain ⟨more, hmore⟩ := hbuf
      rw [← hmore, List.take_append_of_le_length hle]
    have hmove : c.flight ++ buf.take n.val ++ unsent.drop n.val = c.flight ++ unsent := by
      rw [htake, List.append_assoc, List.take_append_drop]
    have hconsumed : consumed (ls ++ [.write (buf.take n.val)]) = consumed ls := by
      rw [consumed_snoc]
      exact List.append_nil _
    constructor
    · exact hk n
    · intro hclosed
      rw [h.closed hclosed, List.drop_nil]
    · rw [hconsumed]
      dsimp only
      rw [hmove]
      exact h.whole
    · exact h.results
    · rw [hconsumed]
      exact h.idle
    · dsimp only
      rw [hmove]
      exact h.busy
    · have hspent := h.spent
      have hlen : (buf.take n.val).length = n.val := List.length_take_of_le hle
      unfold movesLeft at hspent ⊢
      simp only [List.length_append, List.length_drop, List.length_singleton, hlen]
      omega

theorem Account.close (h : Account tx rx stream lens budget unsent taken ls c)
    (hret : c.sender = .ret ()) (hopen : c.closed = false) :
    Account tx rx stream lens budget unsent taken (ls ++ [.close])
      { c with closed := true } := by
  have hconsumed : consumed (ls ++ [.close]) = consumed ls := by
    rw [consumed_snoc]
    exact List.append_nil _
  constructor
  · exact h.sends
  · intro _
    have hsends := h.sends
    rw [hret] at hsends
    cases hsends
    rfl
  · rw [hconsumed]
    exact h.whole
  · exact h.results
  · rw [hconsumed]
    exact h.idle
  · exact h.busy
  · have hspent := h.spent
    unfold movesLeft at hspent ⊢
    rw [hopen] at hspent
    simp only [List.length_append, List.length_singleton, if_true, Bool.false_eq_true, if_false]
      at hspent ⊢
    omega

theorem Account.receive {len : ℕ} {rest : List ℕ}
    (h : Account tx rx stream lens budget unsent taken ls c) (hidle : c.receiver = none)
    (hpending : c.pending = len :: rest) :
    Account tx rx stream lens budget unsent taken (ls ++ [.receive])
      { c with receiver := some (recvFull rx len), pending := rest } := by
  have hconsumed : consumed (ls ++ [.receive]) = consumed ls := by
    rw [consumed_snoc]
    exact List.append_nil _
  obtain ⟨hlens, htaken⟩ := h.idle hidle
  have hleft : c.flight ++ unsent = stream.drop taken.sum := by
    have hwhole := h.whole
    rw [htaken] at hwhole
    nth_rewrite 2 [← List.take_append_drop taken.sum stream] at hwhole
    exact List.append_cancel_left hwhole
  constructor
  · exact h.sends
  · exact h.closed
  · rw [hconsumed]
    exact h.whole
  · exact h.results
  · intro hnone
    cases hnone
  · intro p hp
    cases hp
    refine ⟨len, ?_, ?_⟩
    · rw [hlens, hpending]
    · dsimp only
      rw [hleft, ← List.drop_drop]
      exact receives_recvFull ..
  · have hspent := h.spent
    have hphase := phase_le (some (recvFull rx len))
    unfold movesLeft at hspent ⊢
    rw [hpending, hidle, List.length_cons] at hspent
    rw [List.length_append, List.length_singleton]
    dsimp only
    omega

theorem Account.read {len n : ℕ}
    {k : Option { bytes : Bytes // bytes.length ≤ len } → Prog (Option Bytes)}
    (h : Account tx rx stream lens budget unsent taken ls c)
    (hcall : c.receiver = some (.call (.sockRead rx len) k)) (hpos : 0 < n) (hlen : n ≤ len)
    (havail : n ≤ c.flight.length) (hn : (c.flight.take n).length ≤ len) :
    Account tx rx stream lens budget unsent taken (ls ++ [.read (c.flight.take n)])
      { c with receiver := some (k (some ⟨c.flight.take n, hn⟩)), flight := c.flight.drop n } := by
  have hconsumed : consumed (ls ++ [.read (c.flight.take n)]) =
      consumed ls ++ c.flight.take n := by
    rw [consumed_snoc]
    exact congrArg (consumed ls ++ ·) (List.append_nil _)
  have htake : (c.flight ++ unsent).take n = c.flight.take n :=
    List.take_append_of_le_length havail
  have hdrop : (c.flight ++ unsent).drop n = c.flight.drop n ++ unsent :=
    List.drop_append_of_le_length havail
  constructor
  · exact h.sends
  · exact h.closed
  · rw [hconsumed]
    dsimp only
    rw [List.append_assoc, ← List.append_assoc (c.flight.take n), List.take_append_drop]
    exact h.whole
  · exact h.results
  · intro hnone
    cases hnone
  · intro p hp
    cases hp
    obtain ⟨l, hlens, hreceives⟩ := h.busy _ hcall
    refine ⟨l, hlens, ?_⟩
    cases hreceives with
    | read _ _ _ hk =>
      have hmore : n ≤ (c.flight ++ unsent).length := by
        rw [List.length_append]
        omega
      have hnext := hk n (by rw [htake]; exact hn) hpos hlen hmore
      simp only [htake, hdrop] at hnext
      exact hnext
  · have hspent := h.spent
    have hphase := phase_le (some (k (some ⟨c.flight.take n, hn⟩)))
    have hbefore : phase c.receiver = 2 := by
      rw [hcall]
      rfl
    unfold movesLeft at hspent ⊢
    simp only [List.length_append, List.length_drop, List.length_singleton]
    omega

theorem Account.readEnd {len : ℕ}
    {k : Option { bytes : Bytes // bytes.length ≤ len } → Prog (Option Bytes)}
    (h : Account tx rx stream lens budget unsent taken ls c)
    (hcall : c.receiver = some (.call (.sockRead rx len) k)) (hempty : c.flight = [])
    (hclosed : c.closed = true) :
    Account tx rx stream lens budget unsent taken (ls ++ [.readEnd])
      { c with receiver := some (k (some ⟨[], Nat.zero_le len⟩)) } := by
  have hconsumed : consumed (ls ++ [.readEnd]) = consumed ls := by
    rw [consumed_snoc]
    exact List.append_nil _
  have hnil : c.flight ++ unsent = [] := by
    rw [hempty, h.closed hclosed]
    rfl
  obtain ⟨l, hlens, hreceives⟩ := h.busy _ hcall
  have hret : k (some ⟨[], Nat.zero_le len⟩) = .ret (some ((stream.drop taken.sum).take l)) ∧
      stream.drop (taken.sum + l) = [] := by
    cases hreceives with
    | read _ _ hend _ => exact hend hnil
  constructor
  · exact h.sends
  · exact h.closed
  · rw [hconsumed]
    exact h.whole
  · exact h.results
  · intro hnone
    cases hnone
  · intro p hp
    cases hp
    refine ⟨l, hlens, ?_⟩
    dsimp only
    rw [hret.1, hret.2, hnil]
    exact Receives.ret _ _
  · have hspent := h.spent
    have hbefore : phase c.receiver = 2 := by
      rw [hcall]
      rfl
    have hafter : phase (some (k (some ⟨[], Nat.zero_le len⟩))) = 1 := by
      rw [hret.1]
      rfl
    unfold movesLeft at hspent ⊢
    rw [List.length_append, List.length_singleton]
    dsimp only
    omega

theorem Account.complete {r : Option Bytes}
    (h : Account tx rx stream lens budget unsent taken ls c)
    (hret : c.receiver = some (.ret r)) :
    ∃ len, Account tx rx stream lens budget unsent (taken ++ [len]) (ls ++ [.complete])
      { c with receiver := none, results := c.results ++ [r] } := by
  have hconsumed : consumed (ls ++ [.complete]) = consumed ls := by
    rw [consumed_snoc]
    exact List.append_nil _
  obtain ⟨len, hlens, hreceives⟩ := h.busy _ hret
  have hsum : (taken ++ [len]).sum = taken.sum + len := by
    rw [List.sum_append, List.sum_singleton]
  have hdone : r = some ((stream.drop taken.sum).take len) ∧
      c.flight ++ unsent = stream.drop (taken.sum + len) := by
    generalize hleft : c.flight ++ unsent = left at hreceives
    generalize hrest : stream.drop (taken.sum + len) = rest at hreceives
    cases hreceives
    exact ⟨rfl, rfl⟩
  refine ⟨len, ?_⟩
  constructor
  · exact h.sends
  · exact h.closed
  · rw [hconsumed]
    exact h.whole
  · dsimp only
    rw [h.results, slices_snoc, List.map_append, hdone.1]
    rfl
  · intro _
    constructor
    · rw [hlens, List.append_assoc]
      rfl
    · have hwhole := h.whole
      rw [hdone.2] at hwhole
      nth_rewrite 2 [← List.take_append_drop (taken.sum + len) stream] at hwhole
      rw [hconsumed, hsum]
      exact List.append_cancel_right hwhole
  · intro p hp
    cases hp
  · have hspent := h.spent
    have hbefore : phase c.receiver = 1 := by
      rw [hret]
      rfl
    have hafter : phase (none : Option (Prog (Option Bytes))) = 0 := rfl
    unfold movesLeft at hspent ⊢
    rw [List.length_append, List.length_singleton]
    dsimp only
    omega

theorem Account.step (h : Account tx rx stream lens budget unsent taken ls c)
    (hstep : Step tx rx c a c') :
    ∃ unsent taken, Account tx rx stream lens budget unsent taken (ls ++ [a]) c' := by
  cases hstep with
  | write hcall n => exact ⟨_, _, h.write hcall n⟩
  | close hret hopen => exact ⟨_, _, h.close hret hopen⟩
  | receive hidle hpending => exact ⟨_, _, h.receive hidle hpending⟩
  | read hcall hpos hlen havail hn => exact ⟨_, _, h.read hcall hpos hlen havail hn⟩
  | readEnd hcall hempty hclosed => exact ⟨_, _, h.readEnd hcall hempty hclosed⟩
  | complete hret =>
    obtain ⟨len, hnext⟩ := h.complete hret
    exact ⟨_, _, hnext⟩

theorem account_start (tx rx : ℕ) (buffers : List Bytes) (lens : List ℕ) :
    Account tx rx buffers.flatten lens (2 * buffers.flatten.length + 3 * lens.length + 1)
      buffers.flatten [] [] (start tx buffers lens) := by
  constructor
  · exact sends_sendAll tx buffers
  · intro hclosed
    cases hclosed
  · rfl
  · rfl
  · intro _
    exact ⟨rfl, rfl⟩
  · intro p hp
    cases hp
  · exact Nat.le_of_eq (Nat.zero_add _)

theorem account_run {buffers : List Bytes}
    (h : Run (Step tx rx) (start tx buffers lens) ls c) :
    ∃ unsent taken, Account tx rx buffers.flatten lens
      (2 * buffers.flatten.length + 3 * lens.length + 1) unsent taken ls c := by
  refine Run.traceInvariant (I := fun ls c => ∃ unsent taken, Account tx rx buffers.flatten lens
    (2 * buffers.flatten.length + 3 * lens.length + 1) unsent taken ls c) ?_ ?_ h
  · exact ⟨_, _, account_start tx rx buffers lens⟩
  · intro ls s a t hs hstep
    obtain ⟨unsent, taken, hs⟩ := hs
    exact hs.step hstep

theorem Account.taken_eq (h : Account tx rx stream lens budget unsent taken ls c) :
    taken = lens.take c.results.length := by
  have hlen : c.results.length = taken.length := by
    rw [h.results, List.length_map, slices_length]
  rw [hlen]
  cases hreceiver : c.receiver with
  | none => rw [(h.idle hreceiver).1, List.take_left' rfl]
  | some p =>
    obtain ⟨len, hlens, -⟩ := h.busy p hreceiver
    rw [hlens, List.take_left' rfl]

theorem Account.progress (h : Account tx rx stream lens budget unsent taken ls c) :
    (∃ a c', Step tx rx c a c') ∨ c.receiver = none ∧ c.pending = [] := by
  cases hreceiver : c.receiver with
  | none =>
    cases hpending : c.pending with
    | nil => exact Or.inr ⟨rfl, rfl⟩
    | cons len rest => exact Or.inl ⟨_, _, Step.receive hreceiver hpending⟩
  | some p =>
    left
    obtain ⟨len, -, hreceives⟩ := h.busy p hreceiver
    generalize c.flight ++ unsent = left at hreceives
    generalize stream.drop (taken.sum + len) = rest at hreceives
    cases hreceives with
    | ret => exact ⟨_, _, Step.complete hreceiver⟩
    | read hlen _ _ _ =>
      by_cases hflight : c.flight = []
      · -- nothing to read: the sender goes on, or has closed
        have hsends := h.sends
        cases hsender : c.sender with
        | ret =>
          cases hclosed : c.closed with
          | true => exact ⟨_, _, Step.readEnd hreceiver hflight hclosed⟩
          | false => exact ⟨_, _, Step.close hsender hclosed⟩
        | stuck =>
          rw [hsender] at hsends
          cases hsends
        | call e k =>
          rw [hsender] at hsends
          cases hsends with
          | write hne _ _ =>
            exact ⟨_, _, Step.write hsender ⟨_, List.length_pos_iff.mpr hne, le_refl _⟩⟩
      · have hone : (c.flight.take 1).length = 1 :=
          List.length_take_of_le (List.length_pos_iff.mpr hflight)
        exact ⟨_, _, Step.read hreceiver Nat.one_pos hlen (List.length_pos_iff.mpr hflight)
          (by omega)⟩

/-- The results of a run are what the receives are to give at their places of the stream. -/
theorem Account.delivers (h : Account tx rx stream lens budget unsent taken ls c)
    {before after : List ℕ} {len : ℕ} {r : Option Bytes} (hlens : lens = before ++ len :: after)
    (hget : c.results[before.length]? = some r) :
    Delivers (stream.drop before.sum) len r := by
  have hlt : before.length < c.results.length := (List.getElem?_eq_some_iff.mp hget).1
  have htaken : taken = before ++ len :: after.take (c.results.length - before.length - 1) := by
    have hsub : c.results.length - before.length =
        c.results.length - before.length - 1 + 1 := by omega
    rw [h.taken_eq, hlens, List.take_append, List.take_of_length_le (Nat.le_of_lt hlt), hsub,
      List.take_succ_cons]
    rfl
  obtain ⟨bytes, hslice, hdel⟩ :=
    slices_delivers before len (after.take (c.results.length - before.length - 1)) stream
  rw [h.results, List.getElem?_map, htaken, hslice] at hget
  cases hget
  exact hdel

end Invariant

/-- However the moves of both sides interleave and whatever they move, each receive that is
complete has given the bytes that come next, and before another one begins no more are
consumed. A run has a bounded number of moves, and it can go on until all receives are
complete. -/
theorem recvFull_framed (tx rx : ℕ) (buffers : List Bytes) (lens : List ℕ) {ls : List Move}
    {c : Link} (h : Run (Step tx rx) (start tx buffers lens) ls c) :
    (∀ before len after r, lens = before ++ len :: after →
      c.results[before.length]? = some r → Delivers (buffers.flatten.drop before.sum) len r) ∧
    (c.receiver = none →
      consumed ls = buffers.flatten.take (lens.take c.results.length).sum) ∧
    ls.length ≤ 2 * buffers.flatten.length + 3 * lens.length + 1 ∧
    ((∃ a c', Step tx rx c a c') ∨ c.results.length = lens.length) := by
  obtain ⟨unsent, taken, hacc⟩ := account_run h
  refine ⟨?_, ?_, ?_, ?_⟩
  · intro before len after r hlens hget
    exact hacc.delivers hlens hget
  · intro hidle
    rw [← hacc.taken_eq]
    exact (hacc.idle hidle).2
  · have hspent := hacc.spent
    omega
  · rcases hacc.progress with hstep | hdone
    · exact Or.inl hstep
    · have hlens := (hacc.idle hdone.1).1
      rw [hdone.2, List.append_nil] at hlens
      have hlen : c.results.length = taken.length := by
        rw [hacc.results, List.length_map, slices_length]
      exact Or.inr (by rw [hlen, hlens])

/-- A run with short writes and reads, whose stream ends inside the second receive. -/
theorem short_run : ∃ ls c, Run (Step 3 4) (start 3 [[1, 2], [3]] [1, 4]) ls c ∧
    c.receiver = none ∧ c.results = [some [1], some [2, 3]] := by
  have run : Run (Step 3 4) (start 3 [[1, 2], [3]] [1, 4]) [] _ := Run.nil
  have run := run.snoc (Step.write rfl ⟨1, by decide, by decide⟩)
  have run := run.snoc (Step.receive rfl rfl)
  have run := run.snoc (Step.read rfl Nat.one_pos (by decide) (by decide) (by decide))
  have run := run.snoc (Step.complete rfl)
  have run := run.snoc (Step.receive rfl rfl)
  have run := run.snoc (Step.write rfl ⟨1, by decide, by decide⟩)
  have run := run.snoc (Step.read rfl Nat.one_pos (by decide) (by decide) (by decide))
  have run := run.snoc (Step.write rfl ⟨1, by decide, by decide⟩)
  have run := run.snoc (Step.close rfl rfl)
  have run := run.snoc (Step.read rfl Nat.one_pos (by decide) (by decide) (by decide))
  have run := run.snoc (Step.readEnd rfl rfl rfl)
  have run := run.snoc (Step.complete rfl)
  exact ⟨_, _, run, rfl, rfl⟩

theorem recvFull_framed_sample : ∃ ls, consumed ls = [1, 2, 3] ∧
    Delivers [1, 2, 3] 1 (some [1]) ∧ Delivers [2, 3] 4 (some [2, 3]) := by
  obtain ⟨ls, c, hrun, hidle, hresults⟩ := short_run
  have h := recvFull_framed 3 4 [[1, 2], [3]] [1, 4] hrun
  have hconsumed := h.2.1 hidle
  rw [hresults] at hconsumed
  refine ⟨ls, hconsumed, ?_, ?_⟩
  · apply h.1 [] 1 [4] _ rfl
    rw [hresults]
    rfl
  · apply h.1 [1] 4 [] _ rfl
    rw [hresults]
    rfl

end NervFS.Framing
