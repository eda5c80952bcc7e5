import NervFS.ThreadPool

/-!
The shape that the request handlers share. A handler sends nothing before the header of its
one response, looks at no result of a send, and only closes what it holds afterwards. Two
calls may be refused in between: the file lock of an upload, which the handler reports, and
that of a download, which it does not look at.
-/
namespace NervFS.ResponseShapes

open Programs Calls Protocol FileOps Handlers ThreadPool

/-- Calls that wait neither for the client nor for a file lock. -/
def Prompt : Call → Prop
  | .sockRead _ _ => False
  | .sockWrite _ _ => False
  | .setlkw _ _ => False
  | _ => True

/-- The calls that a handler makes once it has sent something. -/
def Closing : Call → Prop
  | .unlck _ => True
  | .munmap _ => True
  | .close _ => True
  | .lockRelease _ _ => True
  | .sockClose _ => True
  | _ => False

/-- The reply to a shared file lock is not looked at. -/
def Overlooks {α : Type} : (e : Call) → (Reply e → Prog α) → Prop
  | .setlkw _ .read, k => k false = k true
  | _, _ => True

/-- The program looks at no reply to a shared file lock. -/
def Heedless {α : Type} : Prog α → Prop
  | .ret _ => True
  | .stuck => True
  | .call e k => Overlooks e k ∧ ∀ r, Heedless (k r)

/-- The rest of a handler that has sent something. -/
inductive Tail : Prog Unit → Prop
  | ret : Tail (.ret ())
  | stuck : Tail .stuck
  | call {e : Call} {k : Reply e → Prog Unit} (he : Closing e) (h : ∀ r, Tail (k r)) :
    Tail (.call e k)
  | send {fd : ℕ} {buf : Buffer} {p : Prog Unit} (h : Tail p) :
    Tail (sendFull fd buf >>= fun _ => p)

/-- The opcode and the length in the header of the response to a refused file lock. -/
def LockRefused (opcode : UInt16) (payloadLen : UInt32) : Prop :=
  opcode = opRespErr ∧ payloadLen = UInt32.ofNat (4 + msgLockFailed.length)

/-- A handler that has sent nothing yet; `H` holds of the opcode and the length in the
header that it sends first. -/
inductive Shaped : (UInt16 → UInt32 → Prop) → Prog Unit → Prop
  | stuck {H : UInt16 → UInt32 → Prop} : Shaped H .stuck
  | call {H : UInt16 → UInt32 → Prop} {e : Call} {k : Reply e → Prog Unit} (he : Prompt e)
    (h : ∀ r, Shaped H (k r)) : Shaped H (.call e k)
  | malloc {H : UInt16 → UInt32 → Prop} {size : ℕ} {k : Bool → Prog Unit}
    (h : Shaped H (k true)) (hnull : Tail (k false)) : Shaped H (.call (.malloc size) k)
  | record {H : UInt16 → UInt32 → Prop} {fd : Fd} {k : Bool → Prog Unit}
    (hk : k false = k true) (h : Shaped H (k true)) : Shaped H (.call (.setlkw fd .read) k)
  | lock {H : UInt16 → UInt32 → Prop} {fd : Fd} {k : Bool → Prog Unit}
    (hH : ∀ opcode len, H opcode len) (hrefused : Shaped LockRefused (k false))
    (h : Shaped (fun opcode len => ¬ LockRefused opcode len) (k true)) :
    Shaped H (.call (.setlkw fd .write) k)
  | send {H : UInt16 → UInt32 → Prop} {fd : ℕ} {opcode : UInt16} {len : UInt32} {us : UInt64}
    {p : Prog Unit} (hH : H opcode len) (h : Tail p) :
    Shaped H (sendFull fd (.memory (serializeHeader (responseHeader opcode len us))) >>=
      fun _ => p)

section Heed
variable {α β : Type}

theorem Heedless.bind {p : Prog α} {f : α → Prog β} (hp : Heedless p)
    (hf : ∀ a, Heedless (f a)) : Heedless (p >>= f) := by
  induction p with
  | ret a => exact hf a
  | stuck => trivial
  | call e k ih =>
    refine ⟨?_, fun r => ih r (hp.2 r)⟩
    have hover := hp.1
    cases e with
    | setlkw fd kind =>
      cases kind with
      | read => exact congrArg (· >>= f) hover
      | write => trivial
    | _ => trivial

theorem heedless_sendFull (fd : ℕ) (buf : Buffer) : Heedless (sendFull fd buf) := by
  have h : ∀ rounds buf total, Heedless (sendLoop fd rounds buf total) := by
    intro rounds
    induction rounds with
    | zero => exact fun _ _ => trivial
    | succ rounds ih =>
      intro buf total
      unfold sendLoop
      split
      · trivial
      · refine ⟨trivial, fun r => ?_⟩
        cases r with
        | none => trivial
        | some n => exact ih _ _
  exact h _ _ _

theorem heedless_recvFull (fd len : ℕ) : Heedless (recvFull fd len) := by
  have h : ∀ rounds got, Heedless (recvLoop fd len rounds got) := by
    intro rounds
    induction rounds with
    | zero => exact fun _ => trivial
    | succ rounds ih =>
      intro got
      unfold recvLoop
      split
      · trivial
      · refine ⟨trivial, fun r => ?_⟩
        cases r with
        | none => trivial
        | some chunk =>
          change Heedless (if chunk.val = [] then _ else _)
          split
          · trivial
          · exact ih _
  exact h _ _

theorem overlooks_of_prompt {e : Call} (he : Prompt e) (k : Reply e → Prog α) :
    Overlooks e k := by
  cases e with
  | setlkw fd kind => exact he.elim
  | _ => trivial

theorem overlooks_of_closing {e : Call} (he : Closing e) (k : Reply e → Prog α) :
    Overlooks e k := by
  cases e with
  | setlkw fd kind => exact he.elim
  | _ => trivial

theorem Tail.heedless {p : Prog Unit} (h : Tail p) : Heedless p := by
  induction h with
  | ret => trivial
  | stuck => trivial
  | call he h ih => exact ⟨overlooks_of_closing he _, ih⟩
  | send h ih => exact (heedless_sendFull _ _).bind fun _ => ih

theorem Shaped.heedless {H : UInt16 → UInt32 → Prop} {p : Prog Unit} (h : Shaped H p) :
    Heedless p := by
  induction h with
  | stuck => trivial
  | call he h ih => exact ⟨overlooks_of_prompt he _, ih⟩
  | malloc h hnull ih =>
    refine ⟨trivial, fun r => ?_⟩
    cases r with
    | true => exact ih
    | false => exact hnull.heedless
  | record hk h ih =>
    refine ⟨hk, fun r => ?_⟩
    cases r with
    | true => exact ih
    | false => exact hk ▸ ih
  | lock hH hrefused h ih ih' =>
    refine ⟨trivial, fun r => ?_⟩
    cases r with
    | true => exact ih'
    | false => exact ih
  | send hH h => exact (heedless_sendFull _ _).bind fun _ => h.heedless

end Heed

section Compose
variable {H : UInt16 → UInt32 → Prop} {α : Type}

theorem Tail.bind {p : Prog Unit} {f : Unit → Prog Unit} (hp : Tail p) (hf : Tail (f ())) :
    Tail (p >>= f) := by
  induction hp with
  | ret => exact hf
  | stuck => exact Tail.stuck
  | call he h ih => exact Tail.call he ih
  | send h ih =>
    rw [Program.bind_assoc]
    exact Tail.send ih

theorem Shaped.bind {p : Prog Unit} {f : Unit → Prog Unit} (hp : Shaped H p)
    (hf : Tail (f ())) : Shaped H (p >>= f) := by
  induction hp with
  | stuck => exact Shaped.stuck
  | call he h ih => exact Shaped.call he ih
  | malloc h hnull ih => exact Shaped.malloc ih (hnull.bind hf)
  | record hk h ih => exact Shaped.record (congrArg (· >>= f) hk) ih
  | lock hH hrefused h ih ih' => exact Shaped.lock hH ih ih'
  | send hH h =>
    rw [Program.bind_assoc]
    exact Shaped.send hH (h.bind hf)

theorem Shaped.prompt_bind {p : Prog α} {f : α → Prog Unit} (hp : p.All Prompt)
    (hf : ∀ a, Shaped H (f a)) : Shaped H (p >>= f) := by
  induction p with
  | ret a => exact hf a
  | stuck => exact hp.elim
  | call e k ih => exact Shaped.call hp.1 fun r => ih r (hp.2 r)

theorem shaped_load {buf : Bytes} {off len : ℕ} {f : Bytes → Prog Unit}
    (hf : ∀ bytes, Shaped H (f bytes)) : Shaped H (load buf off len >>= f) := by
  unfold load
  split
  · exact hf _
  · exact Shaped.stuck

theorem shaped_store {size : UInt32} {out data : Bytes} {f : Bytes → Prog Unit}
    (hf : ∀ bytes, Shaped H (f bytes)) : Shaped H (store size out data >>= f) := by
  unfold store
  split
  · exact hf _
  · exact Shaped.stuck

theorem shaped_extractName {name : Bytes} {f : Bytes → Prog Unit}
    (hf : ∀ bytes, Shaped H (f bytes)) : Shaped H (extractName name >>= f) := by
  unfold extractName
  split
  · exact hf _
  · exact Shaped.stuck

theorem shaped_readU16 {buf : Bytes} {off : UInt32} {f : UInt16 → Prog Unit}
    (hf : ∀ v, Shaped H (f v)) : Shaped H (readU16 buf off >>= f) := by
  unfold readU16
  rw [Program.bind_assoc]
  exact shaped_load fun _ => hf _

theorem shaped_readU32 {buf : Bytes} {off : UInt32} {f : UInt32 → Prog Unit}
    (hf : ∀ v, Shaped H (f v)) : Shaped H (readU32 buf off >>= f) := by
  unfold readU32
  rw [Program.bind_assoc]
  exact shaped_load fun _ => hf _

theorem shaped_readU64 {buf : Bytes} {off : UInt32} {f : UInt64 → Prog Unit}
    (hf : ∀ v, Shaped H (f v)) : Shaped H (readU64 buf off >>= f) := by
  unfold readU64
  rw [Program.bind_assoc]
  exact shaped_load fun _ => hf _

theorem tail_close {e : Call} {f : Reply e → Prog Unit} (he : Closing e)
    (hf : ∀ r, Tail (f r)) : Tail (invoke e >>= f) :=
  Tail.call he hf

theorem shaped_prompt {e : Call} {f : Reply e → Prog Unit} (he : Prompt e)
    (hf : ∀ r, Shaped H (f r)) : Shaped H (invoke e >>= f) :=
  Shaped.call he hf

end Compose

section Responses
variable {H : UInt16 → UInt32 → Prop} (clientFd : ℕ)

theorem sendMessage_shaped (opcode : UInt16) (payload : Option Bytes) (payloadLen : UInt32)
    (elapsedUs : UInt64) (hH : H opcode payloadLen) :
    Shaped H (sendMessage clientFd opcode payload payloadLen elapsedUs) := by
  unfold sendMessage
  apply Shaped.send hH
  cases payload with
  | none => exact Tail.ret
  | some buf =>
    dsimp only
    split
    · unfold load
      split
      · exact Tail.send Tail.ret
      · exact Tail.stuck
    · exact Tail.ret

theorem sendError_shaped (errCode : UInt16) (msg : Bytes)
    (hH : H opRespErr (2 + 2 + (UInt16.ofNat msg.length).toUInt32)) :
    Shaped H (sendError clientFd errCode msg) := by
  unfold sendError
  apply Shaped.malloc
  · exact shaped_load fun _ => sendMessage_shaped clientFd _ _ _ _ hH
  · exact Tail.ret

theorem sendOk_shaped (elapsedUs : UInt64) (hH : H opRespOk 0) :
    Shaped H (sendOk clientFd elapsedUs) :=
  sendMessage_shaped clientFd _ _ _ _ hH

end Responses

section Handlers
variable {H : UInt16 → UInt32 → Prop} (hH : ∀ opcode len, H opcode len) (clientFd : ℕ)
include hH

theorem uploadLocked_shaped (path nameBuf body : Bytes) (fileSize networkUs : UInt64) :
    Shaped H (uploadLocked clientFd path nameBuf body fileSize networkUs) := by
  unfold uploadLocked
  refine shaped_prompt trivial fun writeStart => shaped_prompt trivial fun opened => ?_
  cases opened with
  | none =>
    exact shaped_prompt trivial fun _ => sendError_shaped clientFd _ _ (hH _ _)
  | some fd =>
    refine Shaped.lock hH ?_ ?_
    · refine shaped_prompt trivial fun _ => shaped_prompt trivial fun _ => ?_
      exact (sendError_shaped clientFd _ _ ⟨rfl, by decide⟩).bind Tail.ret
    · refine shaped_prompt trivial fun bytesWritten => shaped_prompt trivial fun writeEnd => ?_
      dsimp only
      split
      · refine shaped_prompt trivial fun _ => shaped_prompt trivial fun _ => ?_
        refine shaped_prompt trivial fun _ => ?_
        exact (sendError_shaped clientFd _ _ (fun h => absurd h.2 (by decide))).bind Tail.ret
      · refine shaped_prompt trivial fun _ => shaped_prompt trivial fun syncEnd => ?_
        refine shaped_prompt trivial fun _ => shaped_prompt trivial fun _ => ?_
        refine shaped_prompt trivial fun _ => ?_
        exact sendMessage_shaped clientFd _ _ _ _ fun h => absurd h.1 (by decide)

theorem handleUploadTimed_shaped (root payload : Bytes) (payloadLen : UInt32)
    (netStart : Timespec) :
    Shaped H (handleUploadTimed root clientFd payload payloadLen netStart) := by
  have herror : ∀ code msg, Shaped H (sendError clientFd code msg) := fun code msg =>
    sendError_shaped clientFd code msg (hH _ _)
  unfold handleUploadTimed
  refine shaped_prompt trivial fun netEnd => ?_
  dsimp only
  split
  · exact (herror _ _).bind Tail.ret
  refine shaped_readU16 fun nameLen => ?_
  split
  · exact (herror _ _).bind Tail.ret
  refine shaped_load fun name => shaped_readU64 fun fileSize => ?_
  split
  · exact (herror _ _).bind Tail.ret
  cases safeResolvePath root name pathMax with
  | none => exact herror _ _
  | some path =>
    refine shaped_extractName fun nameBuf => shaped_load fun body => ?_
    exact shaped_prompt trivial fun _ => uploadLocked_shaped hH clientFd _ _ _ _ _

omit hH in
theorem closeMmap_tail (mapped : Option Mapping) (size : ℕ) (fileFd : Fd)
    {f : Unit → Prog Unit} (hf : Tail (f ())) :
    Tail (fileopsCloseMmap mapped size fileFd >>= f) := by
  unfold fileopsCloseMmap
  cases mapped with
  | none => exact tail_close trivial fun _ => hf
  | some map =>
    dsimp only
    split
    · exact tail_close trivial fun _ => tail_close trivial fun _ => hf
    · exact tail_close trivial fun _ => hf

theorem downloadBody_shaped (nameBuf : Bytes) (mapped : Option Mapping) (size : ℕ)
    (fileFd : Fd) (elapsedUs : UInt64) :
    Shaped H (downloadBody clientFd nameBuf mapped size fileFd elapsedUs) := by
  have hclose : Tail (fileopsUnlockFd fileFd >>= fun _ =>
      fileopsCloseMmap mapped size fileFd >>= fun _ => fileopsLockReleaseRead nameBuf) := by
    refine tail_close trivial fun _ => closeMmap_tail _ _ _ ?_
    exact Tail.call trivial fun _ => Tail.ret
  unfold downloadBody
  refine Shaped.record rfl (Shaped.send (hH _ _) (Tail.send ?_))
  cases mapped with
  | none => exact hclose
  | some map =>
    dsimp only
    split
    · exact Tail.send hclose
    · exact hclose

theorem downloadLocked_shaped (path nameBuf : Bytes) :
    Shaped H (downloadLocked clientFd path nameBuf) := by
  have hopen : (fileopsOpenForMmapRead path).All Prompt := by
    unfold fileopsOpenForMmapRead
    refine ⟨trivial, fun opened => ?_⟩
    cases opened with
    | none => trivial
    | some fd =>
      refine ⟨trivial, fun size => ?_⟩
      cases size with
      | none => exact ⟨trivial, fun _ => trivial⟩
      | some size =>
        change Program.All Prompt (if size = 0 then _ else _)
        split
        · trivial
        · refine ⟨trivial, fun map => ?_⟩
          cases map with
          | none => exact ⟨trivial, fun _ => trivial⟩
          | some map => trivial
  unfold downloadLocked
  refine shaped_prompt trivial fun start => Shaped.prompt_bind hopen fun rc => ?_
  refine shaped_prompt trivial fun finish => ?_
  cases rc with
  | notFound => exact shaped_prompt trivial fun _ => sendError_shaped clientFd _ _ (hH _ _)
  | mapFailed => exact shaped_prompt trivial fun _ => sendError_shaped clientFd _ _ (hH _ _)
  | opened mapped size fileFd => exact downloadBody_shaped hH clientFd _ _ _ _ _

theorem handleDownload_shaped (root payload : Bytes) (payloadLen : UInt32) :
    Shaped H (handleDownload root clientFd payload payloadLen) := by
  have herror : ∀ code msg, Shaped H (sendError clientFd code msg) := fun code msg =>
    sendError_shaped clientFd code msg (hH _ _)
  unfold handleDownload
  split
  · exact (herror _ _).bind Tail.ret
  refine shaped_readU16 fun nameLen => ?_
  split
  · exact (herror _ _).bind Tail.ret
  refine shaped_load fun name => ?_
  cases safeResolvePath root name pathMax with
  | none => exact herror _ _
  | some path =>
    refine shaped_extractName fun nameBuf => ?_
    exact shaped_prompt trivial fun _ => downloadLocked_shaped hH clientFd _ _

omit hH in
theorem listLoop_prompt (root : Bytes) (dir : Dir) (names : List Bytes) (capacity : ℕ)
    (entries : List Dirent) : (listLoop root dir names capacity entries).All Prompt := by
  induction names generalizing capacity entries with
  | nil => exact ⟨trivial, fun _ => trivial⟩
  | cons name names ih =>
    unfold listLoop
    split
    · exact ih _ _
    dsimp only
    split
    · exact ih _ _
    refine ⟨trivial, fun st => ?_⟩
    cases st with
    | none => exact ih _ _
    | some st =>
      change Program.All Prompt (if (!st.isReg) = true then _ else _)
      split
      · exact ih _ _
      change Program.All Prompt (if entries.length = capacity then _ else _)
      split
      · refine ⟨trivial, fun grown => ?_⟩
        cases grown with
        | true => exact ih _ _
        | false => exact ⟨trivial, fun _ => trivial⟩
      · exact ih _ _

omit hH in
theorem fileopsListDir_prompt (root : Bytes) : (fileopsListDir root).All Prompt := by
  unfold fileopsListDir
  refine ⟨trivial, fun opened => ?_⟩
  cases opened with
  | none => trivial
  | some stream =>
    refine ⟨trivial, fun rc => ?_⟩
    cases rc with
    | true => exact listLoop_prompt ..
    | false => exact ⟨trivial, fun _ => trivial⟩

omit hH in
theorem shaped_encodeEntries {size : UInt32} (entries : List Dirent) (out : Bytes)
    {f : Bytes → Prog Unit} (hf : ∀ bytes, Shaped H (f bytes)) :
    Shaped H (encodeEntries size entries out >>= f) := by
  induction entries generalizing out with
  | nil => exact hf _
  | cons e es ih =>
    unfold encodeEntries
    dsimp only
    simp only [Program.bind_assoc]
    refine shaped_store fun _ => shaped_store fun _ => shaped_store fun _ => ?_
    exact shaped_store fun _ => ih _

theorem handleList_shaped (root : Bytes) : Shaped H (handleList root clientFd) := by
  unfold handleList
  refine shaped_prompt trivial fun start => Shaped.prompt_bind (fileopsListDir_prompt root) ?_
  intro listRc
  refine shaped_prompt trivial fun finish => ?_
  cases listRc with
  | none => exact sendError_shaped clientFd _ _ (hH _ _)
  | some entries =>
    refine shaped_prompt trivial fun rc => ?_
    cases rc with
    | false => exact (sendError_shaped clientFd _ _ (hH _ _)).bind Tail.ret
    | true =>
      refine shaped_store fun out => shaped_encodeEntries entries out fun buf => ?_
      exact sendMessage_shaped clientFd _ _ _ _ (hH _ _)

theorem shaped_outcome (rc : Bool) (elapsedUs : UInt64) :
    Shaped H (do
      if !rc then
        sendError clientFd errNotFound msgNotFound
        return
      sendOk clientFd elapsedUs) := by
  cases rc with
  | false => exact (sendError_shaped clientFd _ _ (hH _ _)).bind Tail.ret
  | true => exact sendOk_shaped clientFd _ (hH _ _)

theorem handleDelete_shaped (root payload : Bytes) (payloadLen : UInt32) :
    Shaped H (handleDelete root clientFd payload payloadLen) := by
  have herror : ∀ code msg, Shaped H (sendError clientFd code msg) := fun code msg =>
    sendError_shaped clientFd code msg (hH _ _)
  unfold handleDelete
  split
  · exact (herror _ _).bind Tail.ret
  refine shaped_readU16 fun nameLen => ?_
  split
  · exact (herror _ _).bind Tail.ret
  refine shaped_load fun name => ?_
  cases safeResolvePath root name pathMax with
  | none => exact herror _ _
  | some path =>
    refine shaped_extractName fun nameBuf => shaped_prompt trivial fun _ => ?_
    refine shaped_prompt trivial fun start => shaped_prompt trivial fun rc => ?_
    refine shaped_prompt trivial fun finish => shaped_prompt trivial fun _ => ?_
    exact shaped_outcome hH clientFd _ _

theorem handleChmod_shaped (root payload : Bytes) (payloadLen : UInt32) :
    Shaped H (handleChmod root clientFd payload payloadLen) := by
  have herror : ∀ code msg, Shaped H (sendError clientFd code msg) := fun code msg =>
    sendError_shaped clientFd code msg (hH _ _)
  unfold handleChmod
  split
  · exact (herror _ _).bind Tail.ret
  refine shaped_readU16 fun nameLen => ?_
  split
  · exact (herror _ _).bind Tail.ret
  refine shaped_load fun name => ?_
  cases safeResolvePath root name pathMax with
  | none => exact herror _ _
  | some path =>
    refine shaped_readU32 fun mode => shaped_extractName fun nameBuf => ?_
    refine shaped_prompt trivial fun _ => shaped_prompt trivial fun start => ?_
    refine shaped_prompt trivial fun rc => shaped_prompt trivial fun finish => ?_
    refine shaped_prompt trivial fun _ => ?_
    exact shaped_outcome hH clientFd _ _

/-- A request that has arrived whole is answered in the shape of its handler. -/
theorem dispatchRequestTimed_shaped (root : Bytes) (header : Header) (payload : Bytes)
    (netStart : Timespec) :
    Shaped H (dispatchRequestTimed root clientFd header payload netStart) := by
  unfold dispatchRequestTimed
  refine shaped_prompt trivial fun _ => ?_
  split_ifs
  · exact handleUploadTimed_shaped hH clientFd root payload _ netStart
  · exact handleDownload_shaped hH clientFd root payload _
  · exact handleList_shaped hH clientFd root
  · exact handleDelete_shaped hH clientFd root payload _
  · exact handleChmod_shaped hH clientFd root payload _
  · exact sendError_shaped clientFd _ _ (hH _ _)

theorem dispatch_shaped (root : Bytes) (header : Header) (payload : Bytes)
    (netStart : Timespec) :
    Shaped H (dispatchRequestTimed root clientFd header payload netStart >>= fun _ =>
      sockClose clientFd) :=
  (dispatchRequestTimed_shaped hH clientFd root header payload netStart).bind
    (Tail.call trivial fun _ => Tail.ret)

end Handlers

theorem any_header (opcode : UInt16) (len : UInt32) : (fun _ _ => True : UInt16 → UInt32 → Prop)
    opcode len := trivial

theorem processJob_heedless (root : Bytes) (job : Job) : Heedless (processJob root job) := by
  have hclose : Heedless (sockClose job.clientFd) := ⟨trivial, fun _ => trivial⟩
  have hserve : ∀ netStart payload, Heedless (dispatchRequestTimed root job.clientFd job.header
      payload netStart >>= fun _ => sockClose job.clientFd) := fun netStart payload =>
    (dispatch_shaped any_header job.clientFd root job.header payload netStart).heedless
  unfold processJob
  refine ⟨trivial, fun netStart => ?_⟩
  change Heedless (if 0 < job.header.payloadLen then _ else _)
  split
  · refine ⟨trivial, fun rc => ?_⟩
    cases rc with
    | false => exact hclose
    | true =>
      refine (heedless_recvFull _ _).bind fun received => ?_
      cases received with
      | none => exact hclose
      | some got =>
        dsimp only
        split
        · exact hclose
        · exact hserve netStart got
  · exact hserve netStart []

end NervFS.ResponseShapes
