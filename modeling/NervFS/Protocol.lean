import NervFS.Calls
import NervFS.Lib.BigEndian
import Mathlib.Data.List.TakeDrop

/-!
The wire format shared by the server and its clients, and the loops that move
whole messages over a socket. Multi-byte fields are big endian on the wire, so
the byte-order conversions of the source are readings of byte strings here.
-/
namespace NervFS.Protocol

open Programs BigEndian Calls

def nervfsMagic : UInt8 := 0xAE
def nervfsVersion : UInt8 := 1
def nervfsHeaderSize : ℕ := 16

def opReqUpload : UInt16 := 0x01
def opReqDownload : UInt16 := 0x02
def opReqList : UInt16 := 0x03
def opReqDelete : UInt16 := 0x04
def opReqChmod : UInt16 := 0x05
def opRespOk : UInt16 := 0x80
def opRespErr : UInt16 := 0x81
def opRespFileData : UInt16 := 0x82
def opRespListData : UInt16 := 0x83

def errNotFound : UInt16 := 404
def errForbidden : UInt16 := 403
def errInternal : UInt16 := 500
def errBadRequest : UInt16 := 400

/-- `nervfs_header_t`, in host byte order. -/
structure Header where
  magic : UInt8
  version : UInt8
  opcode : UInt16
  payloadLen : UInt32
  reserved : UInt64
  deriving DecidableEq

/-- The bytes of an ASCII text. -/
def asciiBytes (text : String) : Bytes := text.toList.map fun c => UInt8.ofNat c.toNat

def serializeHeader (h : Header) : Bytes :=
  h.magic :: h.version :: (toBytes 2 h.opcode.toNat ++
    (toBytes 4 h.payloadLen.toNat ++ toBytes 8 h.reserved.toNat))

/-- `none` is the negative return for a wrong magic or version. -/
def parseHeader (buf : Bytes) : Option Header :=
  let out : Header :=
    { magic := buf.getD 0 0
      version := buf.getD 1 0
      opcode := UInt16.ofNat (ofBytes ((buf.drop 2).take 2))
      payloadLen := UInt32.ofNat (ofBytes ((buf.drop 4).take 4))
      reserved := UInt64.ofNat (ofBytes ((buf.drop 8).take 8)) }
  if out.magic ≠ nervfsMagic then none
  else if out.version ≠ nervfsVersion then none
  else some out

@[simp] theorem serializeHeader_length (h : Header) :
    (serializeHeader h).length = nervfsHeaderSize := by
  simp [serializeHeader, nervfsHeaderSize]

/-- A header that the server builds is read back, whatever follows it. -/
theorem parseHeader_serializeHeader (h : Header) (rest : Bytes) (hmagic : h.magic = nervfsMagic)
    (hversion : h.version = nervfsVersion) :
    parseHeader (serializeHeader h ++ rest) = some h := by
  have hop := h.opcode.toNat_lt
  have hlen := h.payloadLen.toNat_lt
  have hres := h.reserved.toNat_lt
  have h0 : [h.magic, h.version].length = 2 := rfl
  have h2 : (toBytes 2 h.opcode.toNat).length = 2 := toBytes_length ..
  have h4 : (toBytes 4 h.payloadLen.toNat).length = 4 := toBytes_length ..
  have h8 : (toBytes 8 h.reserved.toNat).length = 8 := toBytes_length ..
  have hsplit : serializeHeader h ++ rest =
      [h.magic, h.version] ++ (toBytes 2 h.opcode.toNat ++ (toBytes 4 h.payloadLen.toNat ++
        (toBytes 8 h.reserved.toNat ++ rest))) := by
    simp [serializeHeader]
  have hdrop2 : ((serializeHeader h ++ rest).drop 2).take 2 = toBytes 2 h.opcode.toNat := by
    rw [hsplit, List.drop_left' h0, List.take_left' h2]
  have hdrop4 : ((serializeHeader h ++ rest).drop 4).take 4 = toBytes 4 h.payloadLen.toNat := by
    rw [hsplit, ← List.append_assoc, List.drop_left' (by simp [h2]), List.take_left' h4]
  have hdrop8 : ((serializeHeader h ++ rest).drop 8).take 8 = toBytes 8 h.reserved.toNat := by
    rw [hsplit, ← List.append_assoc, ← List.append_assoc, List.drop_left' (by simp [h2, h4]),
      List.take_left' h8]
  unfold parseHeader
  rw [hdrop2, hdrop4, hdrop8, ofBytes_toBytes_of_lt (by simpa using hop),
    ofBytes_toBytes_of_lt (by simpa using hlen), ofBytes_toBytes_of_lt (by simpa using hres)]
  simp only [UInt16.ofNat_toNat, UInt32.ofNat_toNat, UInt64.ofNat_toNat]
  have hm : (serializeHeader h ++ rest).getD 0 0 = h.magic := rfl
  have hv : (serializeHeader h ++ rest).getD 1 0 = h.version := rfl
  rw [hm, hv, if_neg (not_not.mpr hmagic), if_neg (not_not.mpr hversion)]

/-- The loop of `send_full`. Every round moves at least one byte, so the length of
what is left bounds the number of rounds. -/
def sendLoop (fd : ℕ) : (rounds : ℕ) → Buffer → (total : ℕ) → Prog (Option ℕ)
  | 0, _, total => return some total
  | rounds + 1, buf, total => do
    if buf.length = 0 then
      return some total
    match ← sockWrite fd buf with
    | none => return none
    | some n => sendLoop fd rounds (buf.drop n.val) (total + n.val)

/-- `none` is the return value -1. -/
def sendFull (fd : ℕ) (buf : Buffer) : Prog (Option ℕ) := sendLoop fd buf.length buf 0

/-- The loop of `recv_full`, with the bytes received so far. -/
def recvLoop (fd len : ℕ) : (rounds : ℕ) → (got : Bytes) → Prog (Option Bytes)
  | 0, got => return some got
  | rounds + 1, got => do
    if len ≤ got.length then
      return some got
    match ← sockRead fd (len - got.length) with
    | none => return none
    | some chunk =>
      if chunk.val = [] then
        return some got
      recvLoop fd len rounds (got ++ chunk.val)

/-- The received bytes stand for the returned count and the filled buffer; `none` is
the return value -1. -/
def recvFull (fd len : ℕ) : Prog (Option Bytes) := recvLoop fd len len []

/-- Every call of a send is a socket write of a part of the buffer. -/
theorem sendLoop_all {P : Call → Prop} (fd rounds : ℕ) (buf : Buffer) (total : ℕ)
    (h : ∀ n, P (.sockWrite fd (buf.drop n))) : (sendLoop fd rounds buf total).All P := by
  induction rounds generalizing buf total with
  | zero => trivial
  | succ rounds ih =>
    unfold sendLoop
    split
    · trivial
    · refine ⟨by simpa using h 0, fun r => ?_⟩
      cases r with
      | none => trivial
      | some n => exact ih _ _ fun m => by simpa using h (n.val + m)

theorem sendFull_all {P : Call → Prop} (fd : ℕ) (buf : Buffer)
    (h : ∀ n, P (.sockWrite fd (buf.drop n))) : (sendFull fd buf).All P :=
  sendLoop_all fd _ buf 0 h

end NervFS.Protocol
