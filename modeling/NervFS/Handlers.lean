import NervFS.FileOps

/-!
The request handlers. Each follows its source function call by call and exit by
exit. A read outside the payload, a copy past the end of a fixed buffer or of an
allocated one is `stuck`, so that a theorem about runs is also one about memory.
-/
namespace NervFS.Handlers

open Programs BigEndian Calls Protocol FileOps

/-- Read `len` bytes at `off`, which must lie inside the buffer. -/
def load (buf : Bytes) (off len : ℕ) : Prog Bytes :=
  if off + len ≤ buf.length then return (buf.drop off).take len else .stuck

/-- Write at the current end of a buffer of `size` bytes, of which `out` is filled. -/
def store (size : UInt32) (out data : Bytes) : Prog Bytes :=
  if out.length + data.length ≤ size.toNat then return out ++ data else .stuck

/-- Copies the name into a buffer of 256 bytes and terminates it; the callers see a
C string. -/
def extractName (name : Bytes) : Prog Bytes :=
  if name.length ≤ nervfsMaxNameLen then return cString (name ++ [0]) else .stuck

def readU16 (buf : Bytes) (off : UInt32) : Prog UInt16 := do
  let v ← load buf off.toNat 2
  return UInt16.ofNat (ofBytes v)

def readU32 (buf : Bytes) (off : UInt32) : Prog UInt32 := do
  let v ← load buf off.toNat 4
  return UInt32.ofNat (ofBytes v)

def readU64 (buf : Bytes) (off : UInt32) : Prog UInt64 := do
  let v ← load buf off.toNat 8
  return UInt64.ofNat (ofBytes v)

def writeU16 (v : UInt16) : Bytes := toBytes 2 v.toNat
def writeU32 (v : UInt32) : Bytes := toBytes 4 v.toNat
def writeU64 (v : UInt64) : Bytes := toBytes 8 v.toNat

def elapsedMicroseconds (start finish : Timespec) : UInt64 :=
  let secDiff := finish.sec - start.sec
  let nsecDiff := finish.nsec - start.nsec
  if nsecDiff < 0 then
    UInt64.ofInt ((secDiff - 1) * 1000000 + (nsecDiff + 1000000000).tdiv 1000)
  else UInt64.ofInt (secDiff * 1000000 + nsecDiff.tdiv 1000)

/-- The header every response starts with. -/
def responseHeader (opcode : UInt16) (payloadLen : UInt32) (elapsedUs : UInt64) : Header :=
  { magic := nervfsMagic
    version := nervfsVersion
    opcode := opcode
    payloadLen := payloadLen
    reserved := elapsedUs }

/-- `payload` is `none` for the null pointer. -/
def sendMessage (clientFd : ℕ) (opcode : UInt16) (payload : Option Bytes)
    (payloadLen : UInt32) (elapsedUs : UInt64) : Prog Unit := do
  let headerBuf := serializeHeader (responseHeader opcode payloadLen elapsedUs)
  let _ ← sendFull clientFd (.memory headerBuf)
  match payload with
  | none => return
  | some buf =>
    if 0 < payloadLen then
      let body ← load buf 0 payloadLen.toNat
      let _ ← sendFull clientFd (.memory body)

def sendOk (clientFd : ℕ) (elapsedUs : UInt64) : Prog Unit :=
  sendMessage clientFd opRespOk none 0 elapsedUs

def sendError (clientFd : ℕ) (errCode : UInt16) (msg : Bytes) : Prog Unit := do
  let msgLen := UInt16.ofNat msg.length
  let payloadLen : UInt32 := 2 + 2 + msgLen.toUInt32
  if ← malloc payloadLen.toNat then
    let text ← load msg 0 msgLen.toNat
    let buf := writeU16 errCode ++ (writeU16 msgLen ++ text)
    sendMessage clientFd opRespErr (some buf) payloadLen 0

def msgUploadTooShort : Bytes := asciiBytes "upload payload too short"
def msgUploadTruncated : Bytes := asciiBytes "upload payload truncated"
def msgSizeMismatch : Bytes := asciiBytes "declared file size does not match payload"
def msgInvalidFilename : Bytes := asciiBytes "invalid filename"
def msgOpenFailed : Bytes := asciiBytes "failed to open file"
def msgLockFailed : Bytes := asciiBytes "failed to lock file"
def msgWriteFailed : Bytes := asciiBytes "failed to write file body"
def msgDownloadTooShort : Bytes := asciiBytes "download payload too short"
def msgDownloadMalformed : Bytes := asciiBytes "download payload malformed"
def msgNotFound : Bytes := asciiBytes "file not found"
def msgMapFailed : Bytes := asciiBytes "failed to map file"
def msgListFailed : Bytes := asciiBytes "failed to list storage directory"
def msgNoMemory : Bytes := asciiBytes "response allocation failed"
def msgDeleteTooShort : Bytes := asciiBytes "delete payload too short"
def msgDeleteMalformed : Bytes := asciiBytes "delete payload malformed"
def msgChmodTooShort : Bytes := asciiBytes "chmod payload too short"
def msgChmodMalformed : Bytes := asciiBytes "chmod payload malformed"
def msgUnknownOpcode : Bytes := asciiBytes "unknown opcode"

/-- What `handle_upload_timed` does once it holds the writer lock. -/
def uploadLocked (clientFd : ℕ) (path nameBuf body : Bytes) (fileSize networkUs : UInt64) :
    Prog Unit := do
  let writeStart ← clockGettime
  let some fd ← openWrite path
    | do
      fileopsLockReleaseWrite nameBuf
      sendError clientFd errInternal msgOpenFailed
  if !(← fileopsLockFd fd .write) then
    close fd
    fileopsLockReleaseWrite nameBuf
    sendError clientFd errInternal msgLockFailed
    return
  let bytesWritten ← write fd body
  let writeEnd ← clockGettime
  let writeUs := elapsedMicroseconds writeStart writeEnd
  if bytesWritten ≠ some fileSize.toNat then
    let _ ← fileopsUnlockFd fd
    close fd
    fileopsLockReleaseWrite nameBuf
    sendError clientFd errInternal msgWriteFailed
    return
  fsync fd
  let syncEnd ← clockGettime
  let _ ← fileopsUnlockFd fd
  close fd
  fileopsLockReleaseWrite nameBuf
  let syncUs := elapsedMicroseconds writeEnd syncEnd
  let metricsBuf := writeU64 networkUs ++ (writeU64 writeUs ++ writeU64 syncUs)
  sendMessage clientFd opRespOk (some metricsBuf) 24 (networkUs + writeUs + syncUs)

def handleUploadTimed (root : Bytes) (clientFd : ℕ) (payload : Bytes) (payloadLen : UInt32)
    (netStart : Timespec) : Prog Unit := do
  let netEnd ← clockGettime
  let networkUs := elapsedMicroseconds netStart netEnd
  if payloadLen < 2 then
    sendError clientFd errBadRequest msgUploadTooShort
    return
  let nameLen ← readU16 payload 0
  let offset : UInt32 := 2
  if payloadLen < offset + nameLen.toUInt32 + 8 then
    sendError clientFd errBadRequest msgUploadTruncated
    return
  let name ← load payload offset.toNat nameLen.toNat
  let offset := offset + nameLen.toUInt32
  let fileSize ← readU64 payload offset
  let offset := offset + 8
  if (payloadLen - offset).toUInt64 ≠ fileSize then
    sendError clientFd errBadRequest msgSizeMismatch
    return
  let some path := safeResolvePath root name pathMax
    | sendError clientFd errForbidden msgInvalidFilename
  let nameBuf ← extractName name
  let body ← load payload offset.toNat fileSize.toNat
  fileopsLockAcquireWrite nameBuf
  uploadLocked clientFd path nameBuf body fileSize networkUs

/-- The response of `handle_download` once the file is open and mapped. -/
def downloadBody (clientFd : ℕ) (nameBuf : Bytes) (mapped : Option Mapping) (size : ℕ)
    (fileFd : Fd) (elapsedUs : UInt64) : Prog Unit := do
  let _ ← fileopsLockFd fileFd .read
  let header := responseHeader opRespFileData (UInt32.ofNat (8 + size)) elapsedUs
  let _ ← sendFull clientFd (.memory (serializeHeader header))
  let _ ← sendFull clientFd (.memory (writeU64 (UInt64.ofNat size)))
  match mapped with
  | none => pure ()
  | some map =>
    if 0 < size then
      let _ ← sendFull clientFd (.mapped map 0 size)
  let _ ← fileopsUnlockFd fileFd
  fileopsCloseMmap mapped size fileFd
  fileopsLockReleaseRead nameBuf

def downloadLocked (clientFd : ℕ) (path nameBuf : Bytes) : Prog Unit := do
  let start ← clockGettime
  let rc ← fileopsOpenForMmapRead path
  let finish ← clockGettime
  match rc with
  | .notFound => do
    fileopsLockReleaseRead nameBuf
    sendError clientFd errNotFound msgNotFound
  | .mapFailed => do
    fileopsLockReleaseRead nameBuf
    sendError clientFd errInternal msgMapFailed
  | .opened mapped size fileFd =>
    downloadBody clientFd nameBuf mapped size fileFd (elapsedMicroseconds start finish)

def handleDownload (root : Bytes) (clientFd : ℕ) (payload : Bytes) (payloadLen : UInt32) :
    Prog Unit := do
  if payloadLen < 2 then
    sendError clientFd errBadRequest msgDownloadTooShort
    return
  let nameLen ← readU16 payload 0
  if payloadLen ≠ 2 + nameLen.toUInt32 then
    sendError clientFd errBadRequest msgDownloadMalformed
    return
  let name ← load payload 2 nameLen.toNat
  let some path := safeResolvePath root name pathMax
    | sendError clientFd errForbidden msgInvalidFilename
  let nameBuf ← extractName name
  fileopsLockAcquireRead nameBuf
  downloadLocked clientFd path nameBuf

/-- The length of the list payload, summed in 32 bits. -/
def listPayloadLen (entries : List Dirent) : UInt32 :=
  entries.foldl (fun len e => len + (2 + UInt32.ofNat e.name.length + 8 + 4)) 4

/-- The second pass over the entries, writing them into the allocated payload. -/
def encodeEntries (size : UInt32) : List Dirent → (out : Bytes) → Prog Bytes
  | [], out => return out
  | e :: es, out => do
    let nlen := UInt16.ofNat e.name.length
    let out ← store size out (writeU16 nlen)
    let out ← store size out (e.name.take nlen.toNat)
    let out ← store size out (writeU64 e.size)
    let out ← store size out (writeU32 e.mode)
    encodeEntries size es out

def handleList (root : Bytes) (clientFd : ℕ) : Prog Unit := do
  let start ← clockGettime
  let listRc ← fileopsListDir root
  let finish ← clockGettime
  let some entries := listRc
    | sendError clientFd errInternal msgListFailed
  let elapsedUs := elapsedMicroseconds start finish
  let payloadLen := listPayloadLen entries
  if !(← malloc payloadLen.toNat) then
    sendError clientFd errInternal msgNoMemory
    return
  let out ← store payloadLen [] (writeU32 (UInt32.ofNat entries.length))
  let buf ← encodeEntries payloadLen entries out
  sendMessage clientFd opRespListData (some buf) payloadLen elapsedUs

def handleDelete (root : Bytes) (clientFd : ℕ) (payload : Bytes) (payloadLen : UInt32) :
    Prog Unit := do
  if payloadLen < 2 then
    sendError clientFd errBadRequest msgDeleteTooShort
    return
  let nameLen ← readU16 payload 0
  if payloadLen ≠ 2 + nameLen.toUInt32 then
    sendError clientFd errBadRequest msgDeleteMalformed
    return
  let name ← load payload 2 nameLen.toNat
  let some path := safeResolvePath root name pathMax
    | sendError clientFd errForbidden msgInvalidFilename
  let nameBuf ← extractName name
  fileopsLockAcquireWrite nameBuf
  let start ← clockGettime
  let deleteRc ← fileopsDeleteFile path
  let finish ← clockGettime
  fileopsLockReleaseWrite nameBuf
  if !deleteRc then
    sendError clientFd errNotFound msgNotFound
    return
  sendOk clientFd (elapsedMicroseconds start finish)

def handleChmod (root : Bytes) (clientFd : ℕ) (payload : Bytes) (payloadLen : UInt32) :
    Prog Unit := do
  if payloadLen < 2 then
    sendError clientFd errBadRequest msgChmodTooShort
    return
  let nameLen ← readU16 payload 0
  if payloadLen ≠ 2 + nameLen.toUInt32 + 4 then
    sendError clientFd errBadRequest msgChmodMalformed
    return
  let name ← load payload 2 nameLen.toNat
  let some path := safeResolvePath root name pathMax
    | sendError clientFd errForbidden msgInvalidFilename
  let mode ← readU32 payload (2 + nameLen.toUInt32)
  let nameBuf ← extractName name
  fileopsLockAcquireWrite nameBuf
  let start ← clockGettime
  let chmodRc ← fileopsChmodFile path mode
  let finish ← clockGettime
  fileopsLockReleaseWrite nameBuf
  if !chmodRc then
    sendError clientFd errNotFound msgNotFound
    return
  sendOk clientFd (elapsedMicroseconds start finish)

def dispatchRequestTimed (root : Bytes) (clientFd : ℕ) (header : Header) (payload : Bytes)
    (netStart : Timespec) : Prog Unit := do
  invoke (.dispatch header.opcode)
  if header.opcode = opReqUpload then
    handleUploadTimed root clientFd payload header.payloadLen netStart
  else if header.opcode = opReqDownload then
    handleDownload root clientFd payload header.payloadLen
  else if header.opcode = opReqList then
    handleList root clientFd
  else if header.opcode = opReqDelete then
    handleDelete root clientFd payload header.payloadLen
  else if header.opcode = opReqChmod then
    handleChmod root clientFd payload header.payloadLen
  else
    sendError clientFd errBadRequest msgUnknownOpcode

theorem sendFull_memory_all (clientFd : ℕ) (bytes : Bytes) :
    (sendFull clientFd (.memory bytes)).All (SendsMemory clientFd) :=
  sendFull_all clientFd _ fun n => ⟨bytes.drop n, rfl⟩

theorem sendMessage_all (clientFd : ℕ) (opcode : UInt16) (payload : Option Bytes)
    (payloadLen : UInt32) (elapsedUs : UInt64)
    (h : ∀ buf ∈ payload, payloadLen.toNat ≤ buf.length) :
    (sendMessage clientFd opcode payload payloadLen elapsedUs).All (SendsMemory clientFd) := by
  unfold sendMessage
  refine (sendFull_memory_all clientFd _).bind fun _ => ?_
  cases payload with
  | none => trivial
  | some buf =>
    dsimp only
    split
    · unfold load
      rw [if_pos (by rw [Nat.zero_add]; exact h buf rfl)]
      exact (sendFull_memory_all clientFd _).bind fun _ => trivial
    · trivial

/-- The texts of the error responses all fit their 16 bit length. -/
theorem sendError_all (clientFd : ℕ) (errCode : UInt16) (msg : Bytes)
    (hmsg : msg.length < 65536) :
    (sendError clientFd errCode msg).All (SendsError clientFd) := by
  have hlen : (UInt16.ofNat msg.length).toNat = msg.length := UInt16.toNat_ofNat_of_lt' hmsg
  unfold sendError
  refine ⟨Or.inr ⟨_, rfl⟩, fun r => ?_⟩
  cases r with
  | false => trivial
  | true =>
    change Program.All _ (load msg 0 _ >>= _)
    unfold load
    rw [if_pos (by omega), Program.pure_eq, Program.ret_bind]
    refine Program.All.mono (Q := SendsError clientFd)
      (sendMessage_all clientFd opRespErr _ _ 0 fun buf hbuf => ?_) fun e he => Or.inl he
    cases hbuf
    simp only [List.length_append, writeU16, toBytes_length, List.drop_zero, List.length_take,
      UInt32.toNat_add, UInt16.toNat_toUInt32, hlen, UInt32.reduceToNat]
    omega

end NervFS.Handlers
