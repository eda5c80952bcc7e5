import NervFS.Handlers

/-!
The command line client. A command is a program over the socket calls; the calls on the
local file are described by their outcomes. As in the handlers, an access outside a
buffer is `stuck`. An argument is given by its bytes without the final null byte, so
their number is what `strlen` returns.
-/
namespace NervFS.CommandLine

open Programs BigEndian Calls Protocol FileOps Handlers

/-- A local file that can be opened and told. -/
structure LocalFile where
  content : Bytes
  small : content.length < 2 ^ 63

/-- The outcomes of the calls on a file that is read: `fopen`, `ftell`, and how much of
the file `fread` delivers. -/
structure Input where
  opens : Bool
  tells : Bool
  delivered : ℕ

/-- The outcomes of the calls on a file that is written: `fopen`, and how many of the bytes
are in the file after `fclose`, whatever `fwrite` and `fclose` have returned. -/
structure Output where
  opens : Bool
  written : ℕ

/-- A line that a command prints; times are in microseconds, as on the wire. -/
inductive Line
  | okMetrics (totalUs netUs writeUs syncUs : UInt64)
  | ok (totalUs : UInt64)
  | error (code : UInt16) (message : Bytes)
  | count (files : UInt32) (totalUs : UInt64)
  | entry (name : Bytes) (size : UInt64) (mode : UInt32)
  | downloaded (size : UInt64) (totalUs : UInt64)
  /-- on `stderr` -/
  | complaint (text : Bytes)
  | unexpected (opcode : UInt16)
  deriving DecidableEq

def noHeader : Line := .complaint (asciiBytes "no full response header from server")
def wrongHeader : Line := .complaint (asciiBytes "response header failed magic or version check")
def noErrorBody : Line := .complaint (asciiBytes "error response but body could not be read")
def noListBody : Line := .complaint (asciiBytes "list body could not be read")
def noFileSize : Line := .complaint (asciiBytes "could not determine file size")
def shortRead : Line := .complaint (asciiBytes "short read on local file")
def noSizePrefix : Line := .complaint (asciiBytes "could not read file size prefix")
def noFileBody : Line := .complaint (asciiBytes "could not read full file body")
def openFailed : Line := .complaint (asciiBytes "fopen")
def sendHeaderFailed : Line := .complaint (asciiBytes "send header")
def sendPayloadFailed : Line := .complaint (asciiBytes "send payload")

/-- The exit status of a command, what it printed, and what the local file holds now if
the command has written it. -/
structure Result where
  rc : ℕ
  lines : List Line
  saved : Option Bytes := none
  deriving DecidableEq

/-- `none` is the return value 0. A write to a connection that the server has closed does not
come back with an error, it ends the client by SIGPIPE. -/
def sendRequest (fd : ℕ) (opcode : UInt16) (payload : Bytes) (payloadLen : UInt32) :
    Prog (Option Line) := do
  let header : Header :=
    { magic := nervfsMagic
      version := nervfsVersion
      opcode := opcode
      payloadLen := payloadLen
      reserved := 0 }
  match ← sendFull fd (.memory (serializeHeader header)) with
  | none => return some sendHeaderFailed
  | some _ =>
    if 0 < payloadLen then
      let body ← load payload 0 payloadLen.toNat
      match ← sendFull fd (.memory body) with
      | none => return some sendPayloadFailed
      | some _ => return none
    else return none

def readResponseHeader (fd : ℕ) : Prog (Except Line Header) := do
  match ← recvFull fd nervfsHeaderSize with
  | none => return .error noHeader
  | some headerBuf =>
    if headerBuf.length ≠ nervfsHeaderSize then
      return .error noHeader
    match parseHeader headerBuf with
    | none => return .error wrongHeader
    | some header => return .ok header

/-- `recv_full` returned `len`, so the buffer is full. -/
def recvExactly (fd len : ℕ) : Prog (Option Bytes) := do
  match ← recvFull fd len with
  | none => return none
  | some got => if got.length = len then return some got else return none

/-- What the format `%.*s` prints: at most `len` bytes, up to a null byte. Only these are
read. -/
def printText (text : Bytes) (len : ℕ) : Prog Bytes :=
  if len ≤ text.length ∨ 0 ∈ text then return cString (text.take len) else .stuck

/-- Status 0 stands for the return value 0, status 1 for -1. -/
def printSimpleResult (fd : ℕ) (resp : Header) : Prog Result := do
  if resp.opcode = opRespOk then
    if resp.payloadLen = 24 then
      if let some buf ← recvExactly fd 24 then
        let netUs ← readU64 buf 0
        let writeUs ← readU64 buf 8
        let syncUs ← readU64 buf 16
        return ⟨0, [.okMetrics resp.reserved netUs writeUs syncUs], none⟩
    return ⟨0, [.ok resp.reserved], none⟩
  if resp.opcode = opRespErr then
    if ← malloc resp.payloadLen.toNat then
      if let some buf ← recvExactly fd resp.payloadLen.toNat then
        let errCode ← readU16 buf 0
        let msgLen ← readU16 buf 2
        let text ← printText (buf.drop 4) msgLen.toNat
        return ⟨1, [.error errCode text], none⟩
    return ⟨1, [noErrorBody], none⟩
  return ⟨1, [.unexpected resp.opcode], none⟩

/-- The end of the commands that expect no payload of their own. -/
def readSimpleResult (fd : ℕ) : Prog Result := do
  match ← readResponseHeader fd with
  | .error line => return ⟨1, [line], none⟩
  | .ok resp => printSimpleResult fd resp

/-- The loop of `do_list` with `count` rounds to go. The name is copied into a buffer of
256 bytes and terminated there. -/
def listLines (buf : Bytes) : (count : ℕ) → (off : UInt32) → Prog (List Line)
  | 0, _ => return []
  | count + 1, off => do
    let nlen ← readU16 buf off
    let off := off + 2
    let name ← load buf off.toNat nlen.toNat
    let name ← extractName name
    let off := off + nlen.toUInt32
    let size ← readU64 buf off
    let off := off + 8
    let mode ← readU32 buf off
    let off := off + 4
    let lines ← listLines buf count off
    return .entry name size mode :: lines

/-- The end of `do_list`. -/
def readListing (fd : ℕ) : Prog Result := do
  match ← readResponseHeader fd with
  | .error line => return ⟨1, [line], none⟩
  | .ok resp =>
    if resp.opcode ≠ opRespListData then
      printSimpleResult fd resp
    else
      if ← malloc resp.payloadLen.toNat then
        if let some buf ← recvExactly fd resp.payloadLen.toNat then
          let count ← readU32 buf 0
          let lines ← listLines buf count.toNat 4
          return ⟨0, .count count resp.reserved :: lines, none⟩
      return ⟨1, [noListBody], none⟩

def doList (fd : ℕ) : Prog Result := do
  if let some line ← sendRequest fd opReqList [] 0 then
    return ⟨1, [line], none⟩
  readListing fd

def doUpload (fd : ℕ) (io : Input) (file : LocalFile) (remoteName : Bytes) : Prog Result := do
  if !io.opens then
    return ⟨1, [openFailed], none⟩
  if !io.tells then
    return ⟨1, [noFileSize], none⟩
  let size := file.content.length
  let nameLen := UInt16.ofNat remoteName.length
  let payloadLen : UInt32 := 2 + nameLen.toUInt32 + 8 + UInt32.ofNat size
  if !(← malloc payloadLen.toNat) then
    return ⟨1, [], none⟩
  let payload ← store payloadLen [] (writeU16 nameLen)
  let payload ← store payloadLen payload (remoteName.take nameLen.toNat)
  let payload ← store payloadLen payload (writeU64 (UInt64.ofNat size))
  let read := file.content.take io.delivered
  let payload ← store payloadLen payload read
  if read.length ≠ size then
    return ⟨1, [shortRead], none⟩
  if let some line ← sendRequest fd opReqUpload payload payloadLen then
    return ⟨1, [line], none⟩
  readSimpleResult fd

/-- The payload of the commands that take a name, in a buffer of `2 + name_len + extra`
bytes. `rest` goes behind the name. -/
def namedRequest (fd : ℕ) (opcode : UInt16) (remoteName rest : Bytes) (extra : UInt32)
    (answered : Prog Result) : Prog Result := do
  let nameLen := UInt16.ofNat remoteName.length
  let payloadLen : UInt32 := 2 + nameLen.toUInt32 + extra
  if !(← malloc payloadLen.toNat) then
    return ⟨1, [], none⟩
  let payload ← store payloadLen [] (writeU16 nameLen)
  let payload ← store payloadLen payload (remoteName.take nameLen.toNat)
  let payload ← store payloadLen payload rest
  if let some line ← sendRequest fd opcode payload payloadLen then
    return ⟨1, [line], none⟩
  answered

/-- The body of a file of the given size; `none` is a failure. The count that `recv_full`
returns is compared with the size as a signed number. -/
def recvFileBody (fd : ℕ) (size : UInt64) : Prog (Option Bytes) := do
  if 0 < size then
    if !(← malloc size.toNat) then
      return none
    match ← recvFull fd size.toNat with
    | none => return none
    | some got => if (got.length : ℤ) = size.toInt64.toInt then return some got else return none
  else return some []

/-- What `do_download` does with the file data that a response announces. -/
def saveDownload (fd : ℕ) (out : Output) (resp : Header) : Prog Result := do
  let some sizeBuf ← recvExactly fd 8
    | return ⟨1, [noSizePrefix], none⟩
  let size ← readU64 sizeBuf 0
  let some data ← recvFileBody fd size
    | return ⟨1, [noFileBody], none⟩
  if !out.opens then
    return ⟨1, [openFailed], none⟩
  return ⟨0, [.downloaded size resp.reserved], some (data.take out.written)⟩

/-- The end of `do_download`. -/
def readDownload (fd : ℕ) (out : Output) : Prog Result := do
  match ← readResponseHeader fd with
  | .error line => return ⟨1, [line], none⟩
  | .ok resp =>
    if resp.opcode ≠ opRespFileData then
      printSimpleResult fd resp
    else saveDownload fd out resp

def doDownload (fd : ℕ) (out : Output) (remoteName : Bytes) : Prog Result :=
  namedRequest fd opReqDownload remoteName [] 0 (readDownload fd out)

def doDelete (fd : ℕ) (remoteName : Bytes) : Prog Result :=
  namedRequest fd opReqDelete remoteName [] 0 (readSimpleResult fd)

def isSpace (b : UInt8) : Bool := b = 0x20 ∨ 0x09 ≤ b ∧ b ≤ 0x0D

def isOctal (b : UInt8) : Bool := 0x30 ≤ b ∧ b ≤ 0x37

def octalValue (digits : Bytes) : ℕ := digits.foldl (fun n d => n * 8 + (d.toNat - 0x30)) 0

/-- A number that does not fit a `long` is replaced by the nearest one that does. -/
def strtolOctal (text : Bytes) : ℤ :=
  match text.dropWhile isSpace with
  | 0x2D :: digits => max (-(octalValue (digits.takeWhile isOctal) : ℤ)) (-2 ^ 63)
  | 0x2B :: digits => min (octalValue (digits.takeWhile isOctal) : ℤ) (2 ^ 63 - 1)
  | digits => min (octalValue (digits.takeWhile isOctal) : ℤ) (2 ^ 63 - 1)

def doChmod (fd : ℕ) (remoteName modeStr : Bytes) : Prog Result :=
  let mode := UInt32.ofInt (strtolOctal modeStr)
  namedRequest fd opReqChmod remoteName (writeU32 mode) 4 (readSimpleResult fd)

end NervFS.CommandLine
