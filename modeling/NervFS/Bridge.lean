import NervFS.Protocol
import NervFS.FileOps
import NervFS.Lib.NodeBuffer
import NervFS.Lib.Utf8

/-!
The client of the Node bridge. A call writes one request and reads one response; it is
described by the bytes that it writes, which connections that succeed take, and by how
its promise is settled when the socket then emits a given list of events. Strings are
lists of characters, since Node encodes a lone surrogate as the replacement character.
-/
namespace NervFS.Bridge

open Calls Protocol NodeBuffer

/-- What a promise is rejected with. -/
inductive Failure
  | rangeError
  | socketError
  | error (message : List Char) (code : Option ℕ)
  deriving DecidableEq

def headerTruncated : Failure := .error "response header truncated".toList none
def headerInvalid : Failure := .error "invalid NERV-FS response header".toList none
def closedEarly : Failure := .error "connection closed before full response arrived".toList none
def requestFailed : List Char := "NERV-FS request failed".toList

/-- A step of a call that needs no socket. -/
abbrev Js := Except Failure

/-- An operation on a buffer that may throw. -/
def inRange {α : Type} : Option α → Js α
  | some a => .ok a
  | none => .error .rangeError

def buildHeader (opcode : UInt16) (payloadLen : ℕ) : Js Bytes := do
  let buf := alloc nervfsHeaderSize
  let buf ← inRange (writeUIntBE 1 buf nervfsMagic.toNat 0)
  let buf ← inRange (writeUIntBE 1 buf nervfsVersion.toNat 1)
  let buf ← inRange (writeUIntBE 2 buf opcode.toNat 2)
  inRange (writeUIntBE 4 buf payloadLen 4)

def parseHeader (buf : Bytes) : Js Header := do
  if buf.length < nervfsHeaderSize then
    throw headerTruncated
  let magic ← inRange (readUIntBE 1 buf 0)
  let version ← inRange (readUIntBE 1 buf 1)
  let opcode ← inRange (readUIntBE 2 buf 2)
  let payloadLen ← inRange (readUIntBE 4 buf 4)
  let reserved ← inRange (readUIntBE 8 buf 8)
  let header : Header :=
    { magic := UInt8.ofNat magic
      version := UInt8.ofNat version
      opcode := UInt16.ofNat opcode
      payloadLen := UInt32.ofNat payloadLen
      reserved := UInt64.ofNat reserved }
  if header.magic ≠ nervfsMagic ∨ header.version ≠ nervfsVersion then
    throw headerInvalid
  return header

inductive Event
  | data (chunk : Bytes)
  | error
  | ended
  | closed
  deriving DecidableEq

structure Response where
  header : Header
  body : Bytes
  deriving DecidableEq

/-- The variables of `readResponse`; the chunks are kept concatenated and `total` is their
length. -/
structure Reader where
  chunks : Bytes := []
  expected : ℕ := nervfsHeaderSize
  header : Option Header := none

/-- The reader goes on, or the promise is settled. -/
abbrev Progress := Reader ⊕ Js Response

def tryResolve (r : Reader) : Progress :=
  if r.chunks.length < r.expected then .inl r
  else
    match r.header with
    | some header => .inr (.ok ⟨header, subarray r.chunks nervfsHeaderSize r.expected⟩)
    | none =>
      match parseHeader (subarray r.chunks 0 nervfsHeaderSize) with
      | .error e => .inr (.error e)
      | .ok header =>
        let r := { r with
          header := some header
          expected := nervfsHeaderSize + header.payloadLen.toNat }
        if r.chunks.length < r.expected then .inl r
        else .inr (.ok ⟨header, subarray r.chunks nervfsHeaderSize r.expected⟩)

def Reader.onEnd (r : Reader) : Progress :=
  if r.chunks.length < r.expected then .inr (.error closedEarly) else .inl r

def Reader.on (r : Reader) : Event → Progress
  | .data chunk => tryResolve { r with chunks := r.chunks ++ chunk }
  | .error => .inr (.error .socketError)
  | .ended => r.onEnd
  | .closed => r.onEnd

/-- `none` is a promise that is still pending. -/
def readFrom : Reader → List Event → Option (Js Response)
  | _, [] => none
  | r, event :: events =>
    match r.on event with
    | .inl r => readFrom r events
    | .inr settled => some settled

def readResponse (events : List Event) : Option (Js Response) := readFrom {} events

/-- What a call wrote to its socket, and how its promise was settled. -/
structure Call (α : Type) where
  written : Bytes
  settled : Option (Js α)

namespace Call
variable {α β : Type}

def bind (c : Call α) (f : α → Call β) : Call β :=
  match c.settled with
  | some (.ok a) => ⟨c.written ++ (f a).written, (f a).settled⟩
  | some (.error e) => ⟨c.written, some (.error e)⟩
  | none => ⟨c.written, none⟩

instance : Monad Call where
  pure a := ⟨[], some (.ok a)⟩
  bind := bind

def ofJs (r : Js α) : Call α := ⟨[], some r⟩

end Call

def request (events : List Event) (opcode : UInt16) (payload : Bytes) : Call Response := do
  let header ← .ofJs (buildHeader opcode payload.length)
  { written := header ++ payload, settled := readResponse events }

def throwIfError (header : Header) (body : Bytes) : Js Unit := do
  if header.opcode ≠ opRespErr then
    return
  let errCode ← if 2 ≤ body.length then inRange (readUIntBE 2 body 0) else pure 500
  let msgLen ← if 4 ≤ body.length then inRange (readUIntBE 2 body 2) else pure 0
  let msg := Utf8.decode (subarray body 4 (4 + msgLen))
  throw (.error (if msg = [] then requestFailed else msg) (some errCode))

/-- The digits of `toString(16)`. -/
def hexText (n : ℕ) : List Char := Nat.toDigits 16 n

def expectOpcode (header : Header) (expectedOpcode : UInt16) : Js Unit :=
  if header.opcode ≠ expectedOpcode then
    throw (.error ("unexpected NERV-FS response opcode 0x".toList ++ hexText header.opcode.toNat)
      (some 502))
  else pure ()

def filenamePayload (filename : List Char) (extraBytes : ℕ) : Js (Bytes × ℕ) := do
  let nameBuf := Utf8.encode filename
  let payload := alloc (2 + nameBuf.length + extraBytes)
  let payload ← inRange (writeUIntBE 2 payload nameBuf.length 0)
  return (copy nameBuf payload 2, 2 + nameBuf.length)

structure FileInfo where
  name : List Char
  size : ℕ
  mode : ℕ
  deriving DecidableEq

/-- The loop of `listFiles` with `count` rounds to go. -/
def listEntries (body : Bytes) : (count offset : ℕ) → Js (List FileInfo)
  | 0, _ => return []
  | count + 1, offset => do
    let nameLen ← inRange (readUIntBE 2 body offset)
    let offset := offset + 2
    let name := Utf8.decode (subarray body offset (offset + nameLen))
    let offset := offset + nameLen
    let size ← inRange (readUIntBE 8 body offset)
    let offset := offset + 8
    let mode ← inRange (readUIntBE 4 body offset)
    let offset := offset + 4
    let files ← listEntries body count offset
    return ⟨name, size, mode⟩ :: files

structure Listing where
  files : List FileInfo
  serverUs : UInt64
  deriving DecidableEq

def listResult (resp : Response) : Js Listing := do
  throwIfError resp.header resp.body
  expectOpcode resp.header opRespListData
  let count ← inRange (readUIntBE 4 resp.body 0)
  let files ← listEntries resp.body count 4
  return ⟨files, resp.header.reserved⟩

def listFiles (events : List Event) : Call Listing := do
  let resp ← request events opReqList []
  .ofJs (listResult resp)

structure Metrics where
  networkUs : ℕ
  writeUs : ℕ
  syncUs : ℕ
  deriving DecidableEq

structure Uploaded where
  serverUs : UInt64
  metrics : Option Metrics
  deriving DecidableEq

def uploadResult (resp : Response) : Js Uploaded := do
  throwIfError resp.header resp.body
  expectOpcode resp.header opRespOk
  if 24 ≤ resp.body.length then
    let networkUs ← inRange (readUIntBE 8 resp.body 0)
    let writeUs ← inRange (readUIntBE 8 resp.body 8)
    let syncUs ← inRange (readUIntBE 8 resp.body 16)
    return ⟨resp.header.reserved, some ⟨networkUs, writeUs, syncUs⟩⟩
  else return ⟨resp.header.reserved, none⟩

/-- The payload that `uploadFile` builds. -/
def uploadBuffer (filename : List Char) (fileBuffer : Bytes) : Js Bytes := do
  let nameBuf := Utf8.encode filename
  let head := alloc (2 + nameBuf.length + 8)
  let head ← inRange (writeUIntBE 2 head nameBuf.length 0)
  let head := copy nameBuf head 2
  let head ← inRange (writeUIntBE 8 head fileBuffer.length (2 + nameBuf.length))
  return head ++ fileBuffer

def uploadFile (events : List Event) (filename : List Char) (fileBuffer : Bytes) :
    Call Uploaded := do
  let payload ← .ofJs (uploadBuffer filename fileBuffer)
  let resp ← request events opReqUpload payload
  .ofJs (uploadResult resp)

structure Downloaded where
  data : Bytes
  serverUs : UInt64
  deriving DecidableEq

def downloadResult (resp : Response) : Js Downloaded := do
  throwIfError resp.header resp.body
  expectOpcode resp.header opRespFileData
  let fileSize ← inRange (readUIntBE 8 resp.body 0)
  return ⟨subarray resp.body 8 (toNumber (8 + toNumber fileSize)), resp.header.reserved⟩

def downloadFile (events : List Event) (filename : List Char) : Call Downloaded := do
  let (payload, _) ← .ofJs (filenamePayload filename 0)
  let resp ← request events opReqDownload payload
  .ofJs (downloadResult resp)

/-- What `deleteFile` and `chmodFile` make of their response: the server's time. -/
def okResult (resp : Response) : Js UInt64 := do
  throwIfError resp.header resp.body
  expectOpcode resp.header opRespOk
  return resp.header.reserved

def deleteFile (events : List Event) (filename : List Char) : Call UInt64 := do
  let (payload, _) ← .ofJs (filenamePayload filename 0)
  let resp ← request events opReqDelete payload
  .ofJs (okResult resp)

def chmodBuffer (filename : List Char) (mode : ℕ) : Js Bytes := do
  let (payload, nameEnd) ← filenamePayload filename 4
  inRange (writeUIntBE 4 payload mode nameEnd)

def chmodFile (events : List Event) (filename : List Char) (mode : ℕ) : Call UInt64 := do
  let payload ← .ofJs (chmodBuffer filename mode)
  let resp ← request events opReqChmod payload
  .ofJs (okResult resp)

end NervFS.Bridge
