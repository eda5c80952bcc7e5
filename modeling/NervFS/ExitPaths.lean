import NervFS.Lib.Traces
import NervFS.ListPasses
import NervFS.ListedNames
import NervFS.Parsers
import NervFS.Wires

/-!
What a request leaves behind on each of its exits. The account of a run says what the
handler holds and what it has sent. A handler that returns holds nothing and has sent one
response. It does not return from a listing that overruns its buffer, and the response to a
download is broken when the header cannot count the file.
-/
namespace NervFS.ExitPaths

open Programs Calls Protocol FileOps Handlers Requests Operations Listings ListPasses Wires

inductive Resource
  | lock (kind : LockKind) (name : Bytes)
  | file (fd : Fd)
  | stream (dir : Dir)
  | mapping (map : Mapping)
  deriving DecidableEq

/-- What the replies of a run have told: whether every socket write has moved something,
whether every allocation succeeded, the names of the regular files in the directory, and the
size of the file that was mapped. -/
structure Tally where
  steady : Bool := true
  allocated : Bool := true
  names : List Bytes := []
  mapped : ℕ := 0

def Tally.note (root : Bytes) (y : Tally) : Event Call Reply → Tally
  | ⟨.malloc _, r⟩ => { y with allocated := y.allocated && r }
  | ⟨.stat path, some st⟩ =>
    { y with names := y.names ++
      if st.isReg then [(path.drop (root.length + 1)).take nervfsMaxNameLen] else [] }
  | ⟨.mmap _ size, some _⟩ => { y with mapped := size }
  | ⟨.sockWrite _ _, none⟩ => { y with steady := false }
  | _ => y

/-- The length of the listing that has the names. -/
def Tally.listed (y : Tally) : ℕ := 4 + (y.names.map fun n => 14 + n.length).sum

/-- What a run holds and has sent so far, and its tally. -/
structure Account extends Tally where
  held : List Resource := []
  sent : List Symbol := []

namespace Account

def hold (c : Account) (x : Resource) : Account := { c with held := x :: c.held }

/-- Nothing is given back that is not held. -/
def release (c : Account) (x : Resource) : Option Account :=
  if x ∈ c.held then some { c with held := c.held.erase x } else none

def step (clientFd : ℕ) (root : Bytes) (c : Account) : Event Call Reply → Option Account
  | ⟨.lockAcquire kind name, _⟩ => some (c.hold (.lock kind name))
  | ⟨.lockRelease kind name, _⟩ => c.release (.lock kind name)
  | ⟨.openWrite _, some fd⟩ => some (c.hold (.file fd))
  | ⟨.openRead _, some fd⟩ => some (c.hold (.file fd))
  | ⟨.close fd, _⟩ => c.release (.file fd)
  | ⟨.opendir, some (dir, _)⟩ => some (c.hold (.stream dir))
  | ⟨.closedir dir, _⟩ => c.release (.stream dir)
  | ⟨.mmap _ size, some map⟩ => some { c.hold (.mapping map) with mapped := size }
  | ⟨.munmap map, _⟩ => c.release (.mapping map)
  | ⟨.malloc _, r⟩ => some { c with allocated := c.allocated && r }
  | ⟨.stat path, some st⟩ =>
    some { c with names := c.names ++
      if st.isReg then [(path.drop (root.length + 1)).take nervfsMaxNameLen] else [] }
  | ⟨.sockWrite fd _, none⟩ => if fd = clientFd then some { c with steady := false } else none
  | ⟨.sockWrite fd buf, some n⟩ =>
    if fd = clientFd then some { c with sent := c.sent ++ (symbols buf).take n.val } else none
  | _ => some c

theorem release_hold (c : Account) (x : Resource) : (c.hold x).release x = some c := by
  simp [hold, release]

end Account

/-- A listing that the 32 bit length cannot count, and nothing that stopped it. -/
def Overruns (y : Tally) : Prop := y.allocated = true ∧ 2 ^ 32 ≤ y.listed

/-- A file that the length in the header of a download cannot count. -/
def Oversized (y : Tally) : Prop := 2 ^ 32 ≤ 8 + y.mapped

/-- A run is told the same whether or not an account of it is kept. -/
theorem step_tally {clientFd : ℕ} {root : Bytes} {c c' : Account} {ev : Event Call Reply}
    (h : c.step clientFd root ev = some c') : c'.toTally = c.toTally.note root ev := by
  have hrelease : ∀ {x : Resource}, c.release x = some c' → c'.toTally = c.toTally := by
    intro x hx
    unfold Account.release at hx
    split at hx
    · cases hx
      rfl
    · cases hx
  obtain ⟨e, r⟩ := ev
  cases e with
  | lockRelease kind name => exact hrelease h
  | close fd => exact hrelease h
  | closedir dir => exact hrelease h
  | munmap map => exact hrelease h
  | openWrite path => cases r <;> cases h <;> rfl
  | openRead path => cases r <;> cases h <;> rfl
  | opendir => cases r <;> cases h <;> rfl
  | mmap fd size => cases r <;> cases h <;> rfl
  | stat path => cases r <;> cases h <;> rfl
  | sockWrite fd buf =>
    cases r with
    | none =>
      obtain ⟨-, hs⟩ := Option.ite_none_right_eq_some.mp h
      cases hs
      rfl
    | some n =>
      obtain ⟨-, hs⟩ := Option.ite_none_right_eq_some.mp h
      cases hs
      rfl
  | _ =>
    cases h
    rfl

theorem foldlM_tally {clientFd : ℕ} {root : Bytes} {c c' : Account}
    {tr : List (Event Call Reply)} (h : tr.foldlM (Account.step clientFd root) c = some c') :
    c'.toTally = tr.foldl (Tally.note root) c.toTally := by
  induction tr generalizing c with
  | nil =>
    cases h
    rfl
  | cons ev tr ih =>
    rw [List.foldlM_cons] at h
    obtain ⟨m, hstep, hrest⟩ := Option.bind_eq_some_iff.mp h
    rw [List.foldl_cons, ← step_tally hstep]
    exact ih hrest

def responseOpcodes : List UInt16 := [opRespOk, opRespErr, opRespFileData, opRespListData]

def headerSymbols (opcode : UInt16) (len : UInt32) (us : UInt64) : List Symbol :=
  symbols (.memory (serializeHeader (responseHeader opcode len us)))

/-- One header and the body that it announces. -/
def OneResponse (sent : List Symbol) : Prop :=
  ∃ opcode len us body, opcode ∈ responseOpcodes ∧ body.length = len.toNat ∧
    sent = headerSymbols opcode len us ++ body

/-- The small buffer of an error response is allocated. -/
def AllocatesErrors (clientFd : ℕ) (p : Prog Unit) : Event Call Reply → Prop
  | ⟨.malloc _, r⟩ => (∃ errCode msg, p = sendError clientFd errCode msg) → r = true
  | _ => True

theorem oneResponse_iff {opcode : UInt16} {len : UInt32} {us : UInt64} {body : List Symbol}
    (hop : opcode ∈ responseOpcodes) :
    OneResponse (headerSymbols opcode len us ++ body) ↔ body.length = len.toNat := by
  constructor
  · intro h
    obtain ⟨opcode', len', us', body', -, hlen, heq⟩ := h
    have hsize : ∀ o l u, (headerSymbols o l u).length = nervfsHeaderSize := by
      intro o l u
      unfold headerSymbols
      rw [symbols_length]
      exact serializeHeader_length _
    obtain ⟨hheader, hbody⟩ := List.append_inj heq (by rw [hsize, hsize])
    have hbytes := (List.map_injective_iff.mpr fun _ _ h => Symbol.byte.inj h) hheader
    have hread : ∀ o l u, parseHeader (serializeHeader (responseHeader o l u)) =
        some (responseHeader o l u) := by
      intro o l u
      rw [← List.append_nil (serializeHeader _)]
      exact parseHeader_serializeHeader _ [] rfl rfl
    have hsame := hread opcode len us
    rw [hbytes, hread] at hsame
    have hlens : len' = len := congrArg Header.payloadLen (Option.some.inj hsame)
    rw [hbody, hlen, hlens]
  · intro h
    exact ⟨opcode, len, us, body, hop, h, rfl⟩

/-- The calls of a program, whatever the replies that are counted on. -/
abbrev Accounts {α : Type} (assume : Prog α → Event Call Reply → Prop) (clientFd : ℕ)
    (root : Bytes) (post : Account → α → Prop) (c : Account) (p : Prog α) : Prop :=
  Keeps assume (Account.step clientFd root) (fun c => Overruns c.toTally) post c p

section Sends
variable {fd : ℕ} {root : Bytes} {c c' c'' : Account}

/-- The bytes `out` are sent and nothing else is done. -/
structure Sends (c c' : Account) (out : List Symbol) : Prop where
  frame : c' = { c with sent := c'.sent, steady := c'.steady }
  wire : c'.steady = true → c.steady = true ∧ c'.sent = c.sent ++ out

theorem Sends.trans {out out' : List Symbol} (h : Sends c c' out) (h' : Sends c' c'' out') :
    Sends c c'' (out ++ out') := by
  constructor
  · rw [h'.frame, h.frame]
  · intro hsteady
    obtain ⟨hmid, hsent'⟩ := h'.wire hsteady
    obtain ⟨hfirst, hsent⟩ := h.wire hmid
    exact ⟨hfirst, by rw [hsent', hsent, List.append_assoc]⟩

theorem Sends.refl (c : Account) : Sends c c [] :=
  ⟨rfl, fun h => ⟨h, (List.append_nil _).symm⟩⟩

theorem sendLoop_accounts (rounds : ℕ) (buf : Buffer) (total : ℕ) (h : buf.length ≤ rounds) :
    Accounts anyReply fd root (fun c' _ => Sends c c' (symbols buf)) c
      (sendLoop fd rounds buf total) := by
  have hnil : ∀ {buf : Buffer}, buf.length = 0 → symbols buf = [] := by
    intro buf hlen
    apply List.eq_nil_of_length_eq_zero
    rw [symbols_length, hlen]
  induction rounds generalizing c buf total with
  | zero =>
    change Sends c c (symbols buf)
    rw [hnil (Nat.le_zero.mp h)]
    exact Sends.refl c
  | succ rounds ih =>
    unfold sendLoop
    split
    · next hlen =>
      change Sends c c (symbols buf)
      rw [hnil hlen]
      exact Sends.refl c
    · apply Keeps.call
      intro r
      cases r with
      | none =>
        refine ⟨{ c with steady := false }, if_pos rfl, ?_⟩
        exact ⟨rfl, fun hsteady => (Bool.false_ne_true hsteady).elim⟩
      | some n =>
        refine ⟨{ c with sent := c.sent ++ (symbols buf).take n.val }, if_pos rfl, ?_⟩
        have hlen : (buf.drop n.val).length ≤ rounds := by
          have hn := n.property
          rw [Buffer.length_drop]
          omega
        apply (ih (buf.drop n.val) (total + n.val) hlen).mono
        intro c' _ hsends
        have hhead : Sends c { c with sent := c.sent ++ (symbols buf).take n.val }
            ((symbols buf).take n.val) := ⟨rfl, fun hsteady => ⟨hsteady, rfl⟩⟩
        have hall := hhead.trans hsends
        rw [symbols_drop, List.take_append_drop] at hall
        exact hall

theorem sendFull_accounts (buf : Buffer) :
    Accounts anyReply fd root (fun c' _ => Sends c c' (symbols buf)) c (sendFull fd buf) :=
  sendLoop_accounts _ buf 0 le_rfl

end Sends

section Calls
variable {fd : ℕ} {root : Bytes} {c : Account} {α : Type}
  {assume : Prog α → Event Call Reply → Prop} {e : Call} {k : Reply e → Prog α}
  {post : Account → α → Prop}

theorem pass (he : ∀ r, c.step fd root ⟨e, r⟩ = some c)
    (h : ∀ r, Accounts assume fd root post c (k r)) :
    Accounts assume fd root post c (invoke e >>= k) :=
  Keeps.call fun r => ⟨c, he r, h r⟩

theorem take {x : Resource} (he : ∀ r, c.step fd root ⟨e, r⟩ = some (c.hold x))
    (h : ∀ r, Accounts assume fd root post (c.hold x) (k r)) :
    Accounts assume fd root post c (invoke e >>= k) :=
  Keeps.call fun r => ⟨c.hold x, he r, h r⟩

theorem giveBack {x : Resource}
    (he : ∀ r, (c.hold x).step fd root ⟨e, r⟩ = (c.hold x).release x)
    (h : ∀ r, Accounts assume fd root post c (k r)) :
    Accounts assume fd root post (c.hold x) (invoke e >>= k) :=
  Keeps.call fun r => ⟨c, (he r).trans (c.release_hold x), h r⟩

end Calls

section Responses
variable {fd : ℕ} {root : Bytes} {c c' : Account}

/-- The rest of a handler only sent its response. -/
structure Replied (c c' : Account) : Prop where
  frame : c' = { c with sent := c'.sent, steady := c'.steady }
  response : c'.steady = true → OneResponse c'.sent

theorem Replied.of_sends {opcode : UInt16} {len : UInt32} {us : UInt64} {body : List Symbol}
    (hop : opcode ∈ responseOpcodes) (hlen : body.length = len.toNat) (hsent : c.sent = [])
    (h : Sends c c' (headerSymbols opcode len us ++ body)) : Replied c c' := by
  refine ⟨h.frame, fun hsteady => ?_⟩
  obtain ⟨-, hout⟩ := h.wire hsteady
  rw [hout, hsent, List.nil_append]
  exact (oneResponse_iff hop).mpr hlen

theorem sendMessage_accounts {assume : Prog Unit → Event Call Reply → Prop} {opcode : UInt16}
    (hop : opcode ∈ responseOpcodes) (body : Bytes) (us : UInt64) (hlen : body.length < 2 ^ 32)
    (hsent : c.sent = []) :
    Accounts assume fd root (fun c' _ => Replied c c') c
      (sendMessage fd opcode (some body) (UInt32.ofNat body.length) us) := by
  have hnat : (UInt32.ofNat body.length).toNat = body.length := UInt32.toNat_ofNat_of_lt' hlen
  have hsymbols : (symbols (.memory body)).length = body.length := symbols_length _
  unfold sendMessage
  apply Keeps.bind
  apply (sendFull_accounts _).mono
  intro c₁ _ hheader
  dsimp only
  split
  · rw [load_of_le (by omega), Program.ret_bind, hnat, List.drop_zero, List.take_length]
    apply Keeps.bind
    apply (sendFull_accounts _).mono
    intro c₂ _ hbody
    exact Replied.of_sends hop (hsymbols.trans hnat.symm) hsent (hheader.trans hbody)
  · next hzero =>
    have hnone : ([] : List Symbol).length = (UInt32.ofNat body.length).toNat := by
      rw [UInt32.lt_iff_toNat_lt] at hzero
      exact (Nat.eq_zero_of_not_pos hzero).symm
    have hall := hheader.trans (Sends.refl c₁)
    exact Replied.of_sends hop hnone hsent hall

theorem sendOk_accounts {assume : Prog Unit → Event Call Reply → Prop} (us : UInt64)
    (hsent : c.sent = []) :
    Accounts assume fd root (fun c' _ => Replied c c') c (sendOk fd us) := by
  unfold sendOk sendMessage
  apply Keeps.bind
  apply (sendFull_accounts _).mono
  intro c₁ _ hheader
  have hall := hheader.trans (Sends.refl c₁)
  exact Replied.of_sends (by decide) rfl hsent hall

theorem sendError_accounts (errCode : UInt16) {msg : Bytes} (hmsg : msg.length < 65536)
    (hsent : c.sent = []) :
    Accounts (AllocatesErrors fd) fd root (fun c' _ => Replied c c') c
      (sendError fd errCode msg) := by
  have hnat : (UInt16.ofNat msg.length).toNat = msg.length := UInt16.toNat_ofNat_of_lt' hmsg
  intro r hr
  have hr : r = true := hr ⟨errCode, msg, rfl⟩
  subst hr
  refine ⟨c, by simp [Account.step], ?_⟩
  change Accounts _ _ _ _ _ (load msg 0 _ >>= _)
  rw [load_of_le (by omega), Program.ret_bind, hnat, List.drop_zero, List.take_length]
  have hbody : (writeU16 errCode ++ (writeU16 (UInt16.ofNat msg.length) ++ msg)).length =
      4 + msg.length := by
    simp only [List.length_append, writeU16, BigEndian.toBytes_length]
    omega
  have hsize : 2 + 2 + (UInt16.ofNat msg.length).toUInt32 =
      UInt32.ofNat (writeU16 errCode ++ (writeU16 (UInt16.ofNat msg.length) ++ msg)).length := by
    apply UInt32.toNat_inj.mp
    rw [hbody]
    simp only [UInt32.toNat_add, UInt16.toNat_toUInt32, hnat, UInt32.toNat_ofNat',
      UInt32.reduceToNat]
  rw [hsize]
  exact sendMessage_accounts (by decide) _ 0 (by omega) hsent

end Responses

/-- What a handler that returns leaves. -/
structure Finished (c : Account) : Prop where
  held : c.held = []
  fits : ¬ Overruns c.toTally
  response : c.steady = true → (OneResponse c.sent ↔ ¬ Oversized c.toTally)

abbrev Finishes (fd : ℕ) (root : Bytes) (c : Account) (p : Prog Unit) : Prop :=
  Accounts (AllocatesErrors fd) fd root (fun c' _ => Finished c') c p

section Finishing
variable {fd : ℕ} {root : Bytes} {c c' : Account}

theorem Replied.finished (h : Replied c c') (hheld : c.held = []) (hfits : ¬ Overruns c.toTally)
    (hsize : ¬ Oversized c.toTally) : Finished c' := by
  have hframe := h.frame
  refine ⟨?_, ?_, fun hsteady => ?_⟩
  · rw [hframe]
    exact hheld
  · rw [hframe]
    exact hfits
  · apply iff_of_true (h.response hsteady)
    rw [hframe]
    exact hsize

theorem fits_of_unlisted (h : c.names = []) : ¬ Overruns c.toTally := by
  intro hover
  have htotal := hover.2
  simp [Tally.listed, h] at htotal

theorem small_of_unmapped (h : c.mapped = 0) : ¬ Oversized c.toTally := by
  unfold Oversized
  omega

theorem sendError_finishes (errCode : UInt16) {msg : Bytes} (hmsg : msg.length < 65536) :
    Finishes fd root {} (sendError fd errCode msg) := by
  apply (sendError_accounts errCode hmsg rfl).mono
  intro c' _ h
  exact h.finished rfl (fits_of_unlisted rfl) (small_of_unmapped rfl)

theorem sendOk_finishes (us : UInt64) : Finishes fd root {} (sendOk fd us) := by
  apply (sendOk_accounts us rfl).mono
  intro c' _ h
  exact h.finished rfl (fits_of_unlisted rfl) (small_of_unmapped rfl)

theorem uploadAct_finishes (networkUs : UInt64) (path name body : Bytes) :
    Finishes fd root {} (uploadAct fd networkUs path name body) := by
  simp only [uploadAct, uploadLocked, Program.pure_eq, Program.bind_unit]
  apply take fun _ => rfl
  intro _
  apply pass fun _ => rfl
  intro _
  apply Keeps.call
  intro opened
  cases opened with
  | none =>
    refine ⟨_, rfl, ?_⟩
    apply giveBack fun _ => rfl
    intro _
    exact sendError_finishes _ (by decide)
  | some file =>
    refine ⟨_, rfl, ?_⟩
    apply pass fun _ => rfl
    intro locked
    split
    · apply giveBack fun _ => rfl
      intro _
      apply giveBack fun _ => rfl
      intro _
      exact sendError_finishes _ (by decide)
    · apply pass fun _ => rfl
      intro written
      apply pass fun _ => rfl
      intro _
      change Accounts _ _ _ _ _ (if written ≠ _ then _ else _)
      split
      · apply pass fun _ => rfl
        intro _
        apply giveBack fun _ => rfl
        intro _
        apply giveBack fun _ => rfl
        intro _
        exact sendError_finishes _ (by decide)
      · apply pass fun _ => rfl
        intro _
        apply pass fun _ => rfl
        intro _
        apply pass fun _ => rfl
        intro _
        apply giveBack fun _ => rfl
        intro _
        apply giveBack fun _ => rfl
        intro _
        have h24 : ∀ a b c : UInt64, (writeU64 a ++ (writeU64 b ++ writeU64 c)).length = 24 := by
          intro a b c
          simp only [writeU64, List.length_append, BigEndian.toBytes_length]
        apply (sendMessage_accounts (by decide) _ _ (by rw [h24]; decide) rfl).mono
        intro c' _ h
        exact h.finished rfl (fits_of_unlisted rfl) (small_of_unmapped rfl)

theorem answered_finishes (name : Bytes) {op : Prog Bool}
    (hop : ∀ {c : Account} {k : Bool → Prog Unit}, (∀ rc, Finishes fd root c (k rc)) →
      Finishes fd root c (op >>= k)) :
    Finishes fd root {} (do
      fileopsLockAcquireWrite name
      let start ← clockGettime
      let rc ← op
      let finish ← clockGettime
      fileopsLockReleaseWrite name
      if !rc then
        sendError fd errNotFound msgNotFound
        return
      sendOk fd (elapsedMicroseconds start finish)) := by
  simp only [Program.pure_eq, Program.bind_unit]
  apply take fun _ => rfl
  intro _
  apply pass fun _ => rfl
  intro _
  apply hop
  intro rc
  apply pass fun _ => rfl
  intro _
  apply giveBack fun _ => rfl
  intro _
  split
  · exact sendError_finishes _ (by decide)
  · exact sendOk_finishes _

theorem deleteAct_finishes (path name : Bytes) :
    Finishes fd root {} (deleteAct fd path name) :=
  answered_finishes name fun h => pass (fun _ => rfl) h

theorem chmodAct_finishes (path name : Bytes) (mode : UInt32) :
    Finishes fd root {} (chmodAct fd path name mode) :=
  answered_finishes name fun h => pass (fun _ => rfl) h

/-- What `fileops_open_for_mmap_read` leaves behind. -/
def Opened (c c' : Account) : MmapRead → Prop
  | .opened none size file => size = 0 ∧ c' = c.hold (.file file)
  | .opened (some map) size file =>
    0 < size ∧ c' = { (c.hold (.file file)).hold (.mapping map) with mapped := size }
  | .notFound => c' = c
  | .mapFailed => c' = c

theorem fileopsOpenForMmapRead_accounts (path : Bytes) :
    Accounts anyReply fd root (Opened c) c (fileopsOpenForMmapRead path) := by
  unfold fileopsOpenForMmapRead
  apply Keeps.call
  intro opened
  cases opened with
  | none => exact ⟨c, rfl, rfl⟩
  | some file =>
    refine ⟨c.hold (.file file), rfl, ?_⟩
    apply pass fun _ => rfl
    intro size
    cases size with
    | none =>
      apply giveBack fun _ => rfl
      intro _
      rfl
    | some size =>
      change Accounts _ _ _ _ _ (if size = 0 then _ else _)
      split
      · exact ⟨rfl, rfl⟩
      · next hsize =>
        apply Keeps.call
        intro map
        cases map with
        | none =>
          refine ⟨c.hold (.file file), rfl, ?_⟩
          apply giveBack fun _ => rfl
          intro _
          rfl
        | some map => exact ⟨_, rfl, Nat.pos_of_ne_zero hsize, rfl⟩

/-- A response with the file is whole when the header counts the file. -/
theorem file_finished {size : ℕ} {sent body : List Symbol} {steady : Bool} {us : UInt64}
    (hbody : body.length = 8 + size)
    (hwire : steady = true →
      sent = headerSymbols opRespFileData (UInt32.ofNat (8 + size)) us ++ body) :
    Finished { sent := sent, steady := steady, mapped := size } := by
  refine ⟨rfl, fits_of_unlisted rfl, fun hsteady => ?_⟩
  have hsent := hwire hsteady
  dsimp only
  rw [hsent, oneResponse_iff (by decide), hbody, UInt32.toNat_ofNat']
  unfold Oversized
  dsimp only
  omega

theorem downloadBody_finishes {map : Option Mapping} {size : ℕ} {file : Fd} (name : Bytes)
    (us : UInt64) (h : Opened (({} : Account).hold (.lock .read name)) c (.opened map size file)) :
    Finishes fd root c (downloadBody fd name map size file us) := by
  have hsize : ∀ v, (symbols (.memory (writeU64 v))).length = 8 := by
    intro v
    rw [symbols_length]
    exact BigEndian.toBytes_length ..
  unfold downloadBody
  apply pass fun _ => rfl
  intro _
  apply Keeps.bind
  apply (sendFull_accounts _).mono
  intro c₁ _ hheader
  apply Keeps.bind
  apply (sendFull_accounts _).mono
  intro c₂ _ hcount
  have hboth := hheader.trans hcount
  cases map with
  | none =>
    obtain ⟨hzero, rfl⟩ := h
    subst hzero
    rw [hboth.frame]
    change Accounts _ _ _ _ ((({ sent := c₂.sent, steady := c₂.steady } : Account).hold
      (.lock .read name)).hold (.file file)) _
    apply pass fun _ => rfl
    intro _
    apply giveBack fun _ => rfl
    intro _
    apply giveBack fun _ => rfl
    intro _
    apply file_finished (hsize _)
    intro hsteady
    exact (hboth.wire hsteady).2
  | some map =>
    obtain ⟨hpos, rfl⟩ := h
    dsimp only
    rw [if_pos hpos]
    apply Keeps.bind
    apply (sendFull_accounts _).mono
    intro c₃ _ hfile
    have hall := hboth.trans hfile
    rw [hall.frame]
    change Accounts _ _ _ _ (((({ sent := c₃.sent, steady := c₃.steady, mapped := size } :
      Account).hold (.lock .read name)).hold (.file file)).hold (.mapping map)) _
    unfold fileopsCloseMmap
    dsimp only
    rw [if_pos hpos]
    apply pass fun _ => rfl
    intro _
    apply giveBack fun _ => rfl
    intro _
    apply giveBack fun _ => rfl
    intro _
    apply giveBack fun _ => rfl
    intro _
    have hbody : (symbols (.memory (writeU64 (UInt64.ofNat size))) ++
        symbols (.mapped map 0 size)).length = 8 + size := by
      rw [List.length_append, hsize, symbols_length]
      rfl
    apply file_finished hbody
    intro hsteady
    rw [← List.append_assoc]
    exact (hall.wire hsteady).2

theorem downloadAct_finishes (path name : Bytes) :
    Finishes fd root {} (downloadAct fd path name) := by
  unfold downloadAct downloadLocked
  apply take fun _ => rfl
  intro _
  apply pass fun _ => rfl
  intro _
  apply Keeps.bind
  apply (fileopsOpenForMmapRead_accounts path).mono
  intro c rc hopened
  apply pass fun _ => rfl
  intro _
  cases rc with
  | opened map size file => exact downloadBody_finishes name _ hopened
  | notFound =>
    cases hopened
    apply giveBack fun _ => rfl
    intro _
    exact sendError_finishes _ (by decide)
  | mapFailed =>
    cases hopened
    apply giveBack fun _ => rfl
    intro _
    exact sendError_finishes _ (by decide)

/-- The account of a directory that has been read up to some entry. -/
def seen (entries : List Dirent) : Account := { names := entries.map Dirent.name }

/-- What `fileops_list_dir` leaves behind. -/
def Listed (c : Account) : Option (List Dirent) → Prop
  | none => c.held = [] ∧ c.sent = [] ∧ c.mapped = 0 ∧ ¬ Overruns c.toTally
  | some entries => c = seen entries ∧ ∀ e ∈ entries, e.name.length ≤ nervfsMaxNameLen

theorem listed_of_starved {dir : Dir} (entries : List Dirent) :
    Accounts anyReply fd root Listed ({ seen entries with allocated := false }.hold (.stream dir))
      (closedir dir >>= fun _ => Program.ret none) := by
  apply giveBack fun _ => rfl
  intro _
  exact ⟨rfl, rfl, rfl, fun hover => Bool.false_ne_true hover.1⟩

theorem listLoop_accounts (dir : Dir) (names : List Bytes) (capacity : ℕ) (entries : List Dirent)
    (hentries : ∀ e ∈ entries, e.name.length ≤ nervfsMaxNameLen) :
    Accounts anyReply fd root Listed ((seen entries).hold (.stream dir))
      (listLoop root dir names capacity entries) := by
  induction names generalizing capacity entries with
  | nil =>
    unfold listLoop
    apply giveBack fun _ => rfl
    intro _
    exact ⟨rfl, hentries⟩
  | cons dName names ih =>
    unfold listLoop
    split
    · exact ih capacity entries hentries
    · dsimp only
      split
      · exact ih capacity entries hentries
      · apply Keeps.call
        intro found
        cases found with
        | none => exact ⟨_, rfl, ih capacity entries hentries⟩
        | some st =>
          change ∃ c', _ ∧ Accounts _ _ _ _ c' (if (!st.isReg) = true then _ else _)
          split
          · next hreg =>
            refine ⟨(seen entries).hold (.stream dir), ?_, ih capacity entries hentries⟩
            have hreg : st.isReg = false := by simpa using hreg
            simp [Account.step, hreg]
          · next hreg =>
            have hreg : st.isReg = true := by simpa using hreg
            let entry : Dirent :=
              { name := dName.take nervfsMaxNameLen
                size := UInt64.ofNat st.size
                mode := UInt32.ofNat (st.mode &&& 0o7777) }
            have hname : (joinPath root dName).drop (root.length + 1) = dName := by
              unfold joinPath
              rw [List.drop_append]
              simp
            have hmore : ∀ e ∈ entries ++ [entry], e.name.length ≤ nervfsMaxNameLen := by
              intro e he
              rcases List.mem_append.mp he with he | he
              · exact hentries e he
              · rw [List.mem_singleton.mp he]
                exact List.length_take_le ..
            refine ⟨(seen (entries ++ [entry])).hold (.stream dir), ?_, ?_⟩
            · simp only [Account.step, hreg, if_true, hname]
              simp [seen, Account.hold, entry]
            · split
              · apply Keeps.call
                intro grown
                cases grown with
                | false => exact ⟨_, rfl, listed_of_starved (entries ++ [entry])⟩
                | true => exact ⟨_, rfl, ih (capacity * 2) (entries ++ [entry]) hmore⟩
              · exact ih capacity (entries ++ [entry]) hmore

theorem fileopsListDir_accounts :
    Accounts anyReply fd root Listed {} (fileopsListDir root) := by
  unfold fileopsListDir
  apply Keeps.call
  intro opened
  cases opened with
  | none => exact ⟨{}, rfl, rfl, rfl, rfl, fits_of_unlisted rfl⟩
  | some found =>
    obtain ⟨dir, names⟩ := found
    refine ⟨(seen []).hold (.stream dir), rfl, ?_⟩
    apply Keeps.call
    intro allocated
    cases allocated with
    | false => exact ⟨_, rfl, listed_of_starved []⟩
    | true =>
      refine ⟨_, rfl, listLoop_accounts dir names 16 [] ?_⟩
      intro e he
      cases he

theorem listed_seen (entries : List Dirent) :
    (seen entries).listed = (listBody entries).length := by
  have hterm : (fun n : Bytes => 14 + n.length) ∘ Dirent.name =
      fun e : Dirent => 2 + e.name.length + 12 := by
    funext e
    rw [Function.comp_apply]
    omega
  rw [← encodedLength_eq, encodedLength, ← hterm, ← List.map_map]
  rfl

theorem sendList_finishes (us : UInt64) {entries : List Dirent}
    (hnames : ∀ e ∈ entries, e.name.length ≤ nervfsMaxNameLen) :
    Finishes fd root (seen entries) (sendList fd us entries) := by
  have hstarved : Finishes fd root { seen entries with allocated := false }
      (sendError fd errInternal msgNoMemory) := by
    apply (sendError_accounts _ (by decide) rfl).mono
    intro c' _ h
    apply h.finished rfl _ (small_of_unmapped rfl)
    intro hover
    exact Bool.false_ne_true hover.1
  by_cases htotal : (listBody entries).length < 2 ^ 32
  · rw [sendList_eq fd us ⟨hnames, htotal⟩]
    apply Keeps.call
    intro r
    cases r with
    | false => exact ⟨_, rfl, hstarved⟩
    | true =>
      refine ⟨seen entries, rfl, ?_⟩
      apply (sendMessage_accounts (by decide) _ us htotal rfl).mono
      intro c' _ h
      apply h.finished rfl _ (small_of_unmapped rfl)
      intro hover
      have hlong := hover.2
      rw [listed_seen] at hlong
      omega
  · rw [sendList_stuck fd us hnames (by omega)]
    apply Keeps.call
    intro r
    cases r with
    | false => exact ⟨_, rfl, hstarved⟩
    | true =>
      refine ⟨seen entries, rfl, rfl, ?_⟩
      rw [listed_seen]
      omega

theorem handleList_finishes : Finishes fd root {} (handleList root fd) := by
  rw [handleList_eq]
  apply pass fun _ => rfl
  intro start
  apply Keeps.bind
  apply fileopsListDir_accounts.mono
  intro c listRc hlisted
  apply pass fun _ => rfl
  intro finish
  cases listRc with
  | none =>
    obtain ⟨hheld, hsent, hmapped, hfits⟩ := hlisted
    apply (sendError_accounts _ (by decide) hsent).mono
    intro c' _ h
    exact h.finished hheld hfits (small_of_unmapped hmapped)
  | some entries =>
    obtain ⟨rfl, hnames⟩ := hlisted
    exact sendList_finishes _ hnames

theorem resolved_finishes (name : Bytes) {act : Bytes → Prog Unit}
    (hact : ∀ path, Finishes fd root {} (act path)) :
    Finishes fd root {} (resolved root fd name act) := by
  unfold resolved
  split
  · exact sendError_finishes _ (by decide)
  · exact hact _

theorem serve_finishes (netStart : Timespec) (op : Operation) :
    Finishes fd root {} (serve root fd netStart op) := by
  cases op with
  | upload name body =>
    apply pass fun _ => rfl
    intro netEnd
    exact resolved_finishes name fun path => uploadAct_finishes _ path name body
  | download name => exact resolved_finishes name fun path => downloadAct_finishes path name
  | list => exact handleList_finishes
  | delete name => exact resolved_finishes name fun path => deleteAct_finishes path name
  | chmod name mode => exact resolved_finishes name fun path => chmodAct_finishes path name mode

theorem refuse_finishes (opcode : UInt16) {msg : Bytes} (hmsg : msg.length < 65536) :
    Finishes fd root {} (refuse fd opcode msg) := by
  unfold refuse
  split
  · apply pass fun _ => rfl
    intro _
    exact sendError_finishes _ hmsg
  · exact sendError_finishes _ hmsg

theorem dispatchRequestTimed_finishes (header : Header) (payload : Bytes) (netStart : Timespec)
    (hlen : header.payloadLen.toNat = payload.length) :
    Finishes fd root {} (dispatchRequestTimed root fd header payload netStart) := by
  rw [dispatchRequestTimed_eq root fd netStart header hlen]
  apply pass fun _ => rfl
  intro _
  unfold answer
  split
  · next msg hd => exact refuse_finishes _ (decode_error_length hd)
  · exact serve_finishes netStart _

end Finishing

/-- The handler has returned, has given back what it took, each thing once and as what it
was, and has sent one response, unless the client could not be written to. -/
def ExitsCleanly (clientFd : ℕ) (root : Bytes) (tr : List (Event Call Reply)) (q : Prog Unit) :
    Prop :=
  ∃ c, tr.foldlM (Account.step clientFd root) {} = some c ∧ q = .ret () ∧ c.held = [] ∧
    (c.steady = true → OneResponse c.sent)

/-- Nothing was given back that was not held, nobody but the client was written to, and a
handler that has returned holds nothing. -/
def Balanced (clientFd : ℕ) (root : Bytes) (tr : List (Event Call Reply)) (q : Prog Unit) : Prop :=
  ∃ c, tr.foldlM (Account.step clientFd root) {} = some c ∧ (q = .ret () → c.held = [])

/-- The replies of the run neither make up a listing that overruns its buffer nor a file that
the response cannot announce. -/
def Countable (root : Bytes) (tr : List (Event Call Reply)) : Prop :=
  ¬ Overruns (tr.foldl (Tally.note root) {}) ∧
    ((tr.foldl (Tally.note root) {}).steady = true → ¬ Oversized (tr.foldl (Tally.note root) {}))

/-- Every exit of every handler. -/
theorem dispatchRequestTimed_exits (root : Bytes) (clientFd : ℕ) (header : Header)
    (payload : Bytes) (netStart : Timespec) (tr : List (Event Call Reply)) (q : Prog Unit)
    (hlen : header.payloadLen.toNat = payload.length)
    (hrun : (dispatchRequestTimed root clientFd header payload netStart).Runs tr q)
    (hend : q.Ended)
    (hsmall : Meets (AllocatesErrors clientFd)
      (dispatchRequestTimed root clientFd header payload netStart) tr) :
    Balanced clientFd root tr q ∧ (ExitsCleanly clientFd root tr q ↔ Countable root tr) := by
  obtain ⟨c, hfold, hq⟩ :=
    (dispatchRequestTimed_finishes header payload netStart hlen).runs hrun hsmall
  have htold : tr.foldl (Tally.note root) {} = c.toTally := (foldlM_tally hfold).symm
  refine ⟨⟨c, hfold, fun hret => ?_⟩, ?_⟩
  · subst hret
    exact hq.held
  unfold Countable
  rw [htold]
  constructor
  · intro h
    obtain ⟨c', hfold', rfl, -, hresponse⟩ := h
    cases hfold.symm.trans hfold'
    refine ⟨hq.fits, fun hsteady => ?_⟩
    exact (hq.response hsteady).mp (hresponse hsteady)
  · intro h
    obtain ⟨hfits, hsize⟩ := h
    cases q with
    | ret a =>
      refine ⟨c, hfold, rfl, hq.held, fun hsteady => ?_⟩
      exact (hq.response hsteady).mpr (hsize hsteady)
    | stuck => exact absurd hq hfits
    | call e k => cases hend

theorem allocatesErrors_of {fd : ℕ} {p : Prog Unit} {ev : Event Call Reply}
    (h : ∀ size r, ev = ⟨.malloc size, r⟩ → r = true) : AllocatesErrors fd p ev := by
  unfold AllocatesErrors
  split
  · next size r =>
    intro _
    exact h size r rfl
  · trivial

def downloadHeader : Header := requestHeader opReqDownload 3

def sampleInode : Fd := ⟨6, ⟨[0x61], 0⟩⟩

def samplePages : Mapping := ⟨sampleInode.ino, 2⟩

/-- A download of a file of two bytes by a client that takes what it is offered. -/
def downloadRun : List (Event Call Reply) :=
  [⟨.dispatch opReqDownload, ()⟩, ⟨.lockAcquire .read [0x61], ()⟩, ⟨.clockGettime, ⟨0, 0⟩⟩,
    ⟨.openRead [slash, slash, 0x61], some sampleInode⟩, ⟨.fstat sampleInode, some 2⟩,
    ⟨.mmap sampleInode 2, some samplePages⟩, ⟨.clockGettime, ⟨0, 0⟩⟩,
    ⟨.setlkw sampleInode .read, true⟩,
    ⟨.sockWrite 5 (.memory (serializeHeader (responseHeader opRespFileData 10 0))),
      some ⟨16, by decide⟩⟩,
    ⟨.sockWrite 5 (.memory (writeU64 2)), some ⟨8, by decide⟩⟩,
    ⟨.sockWrite 5 (.mapped samplePages 0 2), some ⟨2, by decide⟩⟩, ⟨.unlck sampleInode, true⟩,
    ⟨.munmap samplePages, ()⟩, ⟨.close sampleInode, ()⟩, ⟨.lockRelease .read [0x61], ()⟩]

theorem downloadRun_runs :
    (dispatchRequestTimed [slash] 5 downloadHeader (namePayload [0x61]) ⟨0, 0⟩).Runs downloadRun
      (.ret ()) :=
  .cons (.cons (.cons (.cons (.cons (.cons (.cons (.cons (.cons (.cons (.cons (.cons (.cons (.cons
    (.cons .nil))))))))))))))

theorem downloadRun_allocates : Meets (AllocatesErrors 5)
    (dispatchRequestTimed [slash] 5 downloadHeader (namePayload [0x61]) ⟨0, 0⟩) downloadRun := by
  intro tr₁ ev tr₂ m htr _
  have hmem : ev ∈ downloadRun := htr ▸ List.mem_append_right _ List.mem_cons_self
  apply allocatesErrors_of
  intro size r hev
  subst hev
  simp [downloadRun] at hmem

/-- The lock, the descriptor and the mapping are given back, and the file is sent. -/
theorem dispatchRequestTimed_exits_download :
    Balanced 5 [slash] downloadRun (.ret ()) ∧ ExitsCleanly 5 [slash] downloadRun (.ret ()) := by
  have hcountable : Countable [slash] downloadRun :=
    ⟨fun hover => absurd hover.2 (by decide), fun _ => by unfold Oversized; decide⟩
  obtain ⟨hbalanced, hexits⟩ := dispatchRequestTimed_exits [slash] 5 downloadHeader
    (namePayload [0x61]) ⟨0, 0⟩ downloadRun (.ret ()) rfl downloadRun_runs rfl
    downloadRun_allocates
  exact ⟨hbalanced, hexits.mpr hcountable⟩

def listRequest : Header :=
  { magic := nervfsMagic
    version := nervfsVersion
    opcode := opReqList
    payloadLen := 0
    reserved := 0 }

/-- Every path is an empty file. -/
def emptyFiles : Bytes → Option Stat := fun _ => some ⟨true, 0, 0o644⟩

theorem crowdName_directoryName (i : ℕ) : ListedNames.DirectoryName (crowdName i) := by
  have hlen := crowdName_length i
  refine ⟨by omega, hlen.le, ?_, ?_⟩
  · intro hmem
    rcases of_mem_crowdName hmem with h | h
    · exact absurd h (by decide)
    · exact absurd h (by decide)
  · intro hmem
    rcases of_mem_crowdName hmem with h | h
    · exact absurd h (by decide)
    · exact absurd h (by decide)

theorem crowd_shown (i : ℕ) :
    ListedNames.shown [slash] emptyFiles (crowdName i) = some ⟨crowdName i, 0, 0o644⟩ := by
  have hlen := crowdName_length i
  have hjoin : (joinPath [slash] (crowdName i)).length = 257 := by
    simp only [joinPath, List.length_append, List.length_cons, List.length_nil, hlen]
  have hdots : ¬ (crowdName i = dotName ∨ crowdName i = dotDotName) := by
    intro h
    rcases h with h | h
    · exact absurd (hlen.symm.trans (congrArg List.length h)) (by decide)
    · exact absurd (hlen.symm.trans (congrArg List.length h)) (by decide)
  unfold ListedNames.shown
  rw [ListedNames.statusOf_eq (crowdName_directoryName i), if_neg hdots, if_neg]
  · rfl
  · rw [hjoin]
    decide

theorem crowd_listed (n : ℕ) (dir : Dir) :
    (fileopsListDir [slash]).run
      (ListedNames.disk dir ((crowd n).map Dirent.name) emptyFiles) () =
        some (some (crowd n), ()) := by
  have hnames : ∀ name ∈ (crowd n).map Dirent.name, ListedNames.DirectoryName name := by
    intro name hname
    obtain ⟨e, he, rfl⟩ := List.mem_map.mp hname
    obtain ⟨i, -, rfl⟩ := List.mem_map.mp he
    exact crowdName_directoryName i
  have hloop := ListedNames.listLoop_run [slash] dir ((crowd n).map Dirent.name) emptyFiles
    ((crowd n).map Dirent.name) 16 [] hnames
  have hshown : ((crowd n).map Dirent.name).filterMap (ListedNames.shown [slash] emptyFiles) =
      crowd n := by
    rw [List.filterMap_map]
    apply (List.filterMap_congr ?_).trans List.filterMap_some
    intro e he
    obtain ⟨i, -, rfl⟩ := List.mem_map.mp he
    exact crowd_shown i
  rw [hshown, List.nil_append] at hloop
  have hopen : ListedNames.disk dir ((crowd n).map Dirent.name) emptyFiles .opendir () =
      some (some (dir, (crowd n).map Dirent.name), ()) := rfl
  have hmalloc : ListedNames.disk dir ((crowd n).map Dirent.name) emptyFiles
      (.malloc (16 * direntSize)) () = some (true, ()) := rfl
  unfold fileopsListDir
  refine (Program.run_call_of hopen).trans ?_
  exact (Program.run_call_of hmalloc).trans hloop

theorem disk_allocates {dir : Dir} {names : List Bytes} {files : Bytes → Option Stat}
    {ev : Event Call Reply} {s s' : Unit}
    (h : ListedNames.disk dir names files ev.1 s = some (ev.2, s')) :
    ∀ size r, ev = ⟨.malloc size, r⟩ → r = true := by
  intro size r hev
  subst hev
  have hreply : some (true, s) = some (r, s') := h
  cases hreply
  rfl

/-- A request for the listing of a directory with that many files never returns. -/
theorem crowd_not_clean :
    ∃ tr, (dispatchRequestTimed [slash] 5 listRequest [] ⟨0, 0⟩).Runs tr .stuck ∧
      Meets (AllocatesErrors 5) (dispatchRequestTimed [slash] 5 listRequest [] ⟨0, 0⟩) tr ∧
      ¬ ExitsCleanly 5 [slash] tr .stuck := by
  obtain ⟨tr, hscan, hreplies⟩ := Program.run_runs (crowd_listed crowdSize ⟨3⟩)
  have hnames : ∀ e ∈ crowd crowdSize, e.name.length ≤ nervfsMaxNameLen :=
    fun e he => (crowd_names e he).2
  have hlong := crowd_too_long
  rw [encodedLength_eq] at hlong
  have hsend : ∃ size, (sendList 5 (elapsedMicroseconds ⟨0, 0⟩ ⟨0, 0⟩) (crowd crowdSize)).Runs
      [⟨.malloc size, true⟩] .stuck := by
    rw [sendList_stuck 5 _ hnames hlong]
    exact ⟨_, Program.Runs.cons Program.Runs.nil⟩
  obtain ⟨size, hsend⟩ := hsend
  have hlist : (handleList [slash] 5).Runs (⟨.clockGettime, ⟨0, 0⟩⟩ :: (tr ++
      [⟨.clockGettime, ⟨0, 0⟩⟩, ⟨.malloc size, true⟩])) .stuck := by
    rw [handleList_eq]
    apply Program.Runs.cons
    apply (hscan.bind _).append
    apply Program.Runs.cons
    exact hsend
  refine ⟨⟨.dispatch opReqList, ()⟩ :: _, Program.Runs.cons hlist, ?_, ?_⟩
  · intro tr₁ ev tr₂ m htr _
    have hmem : ev ∈ tr₁ ++ ev :: tr₂ := List.mem_append_right _ List.mem_cons_self
    rw [← htr] at hmem
    simp only [List.mem_cons, List.mem_append, List.not_mem_nil, or_false] at hmem
    apply allocatesErrors_of
    intro size r hev
    rcases hmem with h | h | h | h | h
    · cases h.symm.trans hev
    · cases h.symm.trans hev
    · obtain ⟨s, s', hreply⟩ := hreplies ev h
      exact disk_allocates hreply size r hev
    · cases h.symm.trans hev
    · cases h.symm.trans hev
      rfl
  · intro h
    obtain ⟨c, -, hstuck, -⟩ := h
    cases hstuck

end NervFS.ExitPaths
