import NervFS.FailedUploads
import NervFS.BridgeReplies
import NervFS.CommandReplies

/-!
The responses of the server and what its two clients make of them. A handler puts one
frame on the wire, a header that announces the body and the body; each client recovers
the fields from it, whatever pieces the bytes arrive in, and reads no byte beyond it.
-/
namespace NervFS.Replies

open Programs BigEndian Calls Protocol FileOps Handlers Operations Kernel Responses Listings
open Alone FailedUploads Bridge BridgeReader BridgeReplies CommandLine CommandReplies

/-- What the handlers answer. -/
inductive Message
  | ok (elapsedUs : UInt64)
  | metrics (elapsedUs networkUs writeUs syncUs : UInt64)
  | error (errCode : UInt16) (msg : Bytes)
  | listing (elapsedUs : UInt64) (entries : List Dirent)
  | file (elapsedUs : UInt64) (content : Bytes)

namespace Message

def opcode : Message → UInt16
  | ok _ => opRespOk
  | metrics _ _ _ _ => opRespOk
  | error _ _ => opRespErr
  | listing _ _ => opRespListData
  | file _ _ => opRespFileData

/-- An error response carries no time. -/
def elapsedUs : Message → UInt64
  | ok elapsedUs => elapsedUs
  | metrics elapsedUs _ _ _ => elapsedUs
  | error _ _ => 0
  | listing elapsedUs _ => elapsedUs
  | file elapsedUs _ => elapsedUs

def body : Message → Bytes
  | ok _ => []
  | metrics _ networkUs writeUs syncUs => metricsBody networkUs writeUs syncUs
  | error errCode msg => errorBody errCode msg
  | listing _ entries => listBody entries
  | file _ content => fileBody content

/-- The texts are C strings in UTF-8, and the lengths fit their fields. -/
def Admissible : Message → Prop
  | ok _ => True
  | metrics _ _ _ _ => True
  | error _ msg => msg ≠ [] ∧ msg.length < 65536 ∧ 0 ∉ msg ∧ Utf8.WellFormed msg
  | listing _ entries =>
    Encodable entries ∧ ∀ e ∈ entries, 0 ∉ e.name ∧ Utf8.WellFormed e.name
  | file _ content => content.length < 2 ^ 32 - 8

theorem Admissible.body_lt {m : Message} (h : m.Admissible) : m.body.length < 2 ^ 32 := by
  cases m with
  | ok us => exact Nat.pow_pos (by omega)
  | metrics us networkUs writeUs syncUs =>
    have hlen := metricsBody_length networkUs writeUs syncUs
    simp only [body]
    omega
  | error errCode msg =>
    have hmsg := h.2.1
    simp only [body, errorBody, writeU16, List.length_append, toBytes_length]
    omega
  | listing us entries => exact h.1.total
  | file us content =>
    have hcontent : content.length < 2 ^ 32 - 8 := h
    simp only [body, fileBody, writeU64, List.length_append, toBytes_length]
    omega

end Message

/-- The part of the handlers that sends a message; file data is sent from a mapping. -/
inductive SentBy (σ : Bytes → Node) (fd : ℕ) : Message → Prog Unit → Prop
  | ok (us : UInt64) : SentBy σ fd (.ok us) (sendOk fd us)
  | metrics (us networkUs writeUs syncUs : UInt64) :
    SentBy σ fd (.metrics us networkUs writeUs syncUs)
      (sendMessage fd opRespOk (some (metricsBody networkUs writeUs syncUs)) 24 us)
  | error (errCode : UInt16) (msg : Bytes) :
    SentBy σ fd (.error errCode msg) (sendError fd errCode msg)
  | listing (us : UInt64) (entries : List Dirent) :
    SentBy σ fd (.listing us entries) (sendList fd us entries)
  | file (us : UInt64) {name : Bytes} {content : File} {map : Option Mapping} {file : Fd}
    (h : Mapped σ name content map file) :
    SentBy σ fd (.file us content.bytes)
      (downloadBody fd name map content.bytes.length file us)

section Server
variable {host : Host} {σ : Bytes → Node} {fd : ℕ} {m : Message} {p : Prog Unit} {l : Local}

theorem sentBy_wp (hm : m.Admissible) (hp : SentBy σ fd m p) (hl : Steady l) :
    p.wp (semantics host).handle
      (fun _ s => s.2.sent = l.sent ++ frame m.opcode m.elapsedUs m.body) (σ, l) := by
  cases hp with
  | ok us => exact sendOk_wp us hl.delivers fun _ h => h
  | metrics us networkUs writeUs syncUs =>
    exact sendMetrics_wp networkUs writeUs syncUs us hl.delivers fun _ h => h
  | error errCode msg => exact sendError_steady_wp errCode msg hm.2.1 hl fun _ h => h
  | listing us entries => exact sendList_wp us hl hm.1 fun _ h => h
  | file us hmapped =>
    exact downloadBody_wp us hmapped.file_eq hmapped.map_eq hl.delivers fun _ h => h

end Server

/-- What the calls of the bridge make of a response. -/
def BridgeRecovers (resp : Response) : Message → Prop
  | .ok us => uploadResult resp = .ok ⟨us, none⟩ ∧ okResult resp = .ok us
  | .metrics us networkUs writeUs syncUs =>
    uploadResult resp = .ok ⟨us, some ⟨networkUs.toNat, writeUs.toNat, syncUs.toNat⟩⟩
  | .error errCode msg => ∃ text, Utf8.encode text = msg ∧
    throwIfError resp.header resp.body = .error (.error text (some errCode.toNat))
  | .listing us entries => ∃ files, listResult resp = .ok ⟨files, us⟩ ∧
    files.map (fun f => (Utf8.encode f.name, f.size, f.mode)) =
      entries.map fun e => (e.name, e.size.toNat, e.mode.toNat)
  | .file us content => downloadResult resp = .ok ⟨content, us⟩

/-- What the commands make of a stream that starts with a response. -/
def CommandRecovers (fd : ℕ) (stream rest : Bytes) : Message → Prop
  | .ok us => Reads (readSimpleResult fd) stream ⟨0, [.ok us], none⟩ rest
  | .metrics us networkUs writeUs syncUs =>
    Reads (readSimpleResult fd) stream ⟨0, [.okMetrics us networkUs writeUs syncUs], none⟩ rest
  | .error errCode msg =>
    Reads (readSimpleResult fd) stream ⟨1, [.error errCode msg], none⟩ rest ∧
      Reads (readListing fd) stream ⟨1, [.error errCode msg], none⟩ rest ∧
      ∀ out, Reads (readDownload fd out) stream ⟨1, [.error errCode msg], none⟩ rest
  | .listing us entries =>
    Reads (readListing fd) stream
      ⟨0, .count (UInt32.ofNat entries.length) us :: entries.map entryLine, none⟩ rest
  | .file us content => ∀ out : Output, out.opens = true → content.length ≤ out.written →
    Reads (readDownload fd out) stream
      ⟨0, [.downloaded (UInt64.ofNat content.length) us], some content⟩ rest

/-- Every field of a message can be told from its frame, by either client. -/
structure RoundTrips (m : Message) (bytes : Bytes) : Prop where
  framed : ∃ header, Protocol.parseHeader (bytes.take nervfsHeaderSize) = some header ∧
    header.opcode = m.opcode ∧ header.reserved = m.elapsedUs ∧
    header.payloadLen.toNat = (bytes.drop nervfsHeaderSize).length
  bridge : ∀ (chunks : List Bytes) (rest : Bytes) (events : List Event),
    chunks.flatten = bytes ++ rest → ∃ resp,
      readResponse (chunks.map Event.data ++ events) = some (.ok resp) ∧
      resp.header.opcode = m.opcode ∧ resp.header.reserved = m.elapsedUs ∧
      resp.body = bytes.drop nervfsHeaderSize ∧ BridgeRecovers resp m
  command : ∀ fd rest, CommandRecovers fd (bytes ++ rest) rest m

section Clients
variable {m : Message}

theorem bridge_recovers (hm : m.Admissible) :
    BridgeRecovers (received m.opcode m.elapsedUs m.body) m := by
  cases m with
  | ok us => exact ⟨uploadResult_empty us, okResult_ok us []⟩
  | metrics us networkUs writeUs syncUs => exact uploadResult_metrics us networkUs writeUs syncUs
  | error errCode msg =>
    obtain ⟨hne, hlen, -, text, rfl⟩ := hm
    refine ⟨text, rfl, ?_⟩
    have hthrow := throwIfError_error errCode
      (show (received opRespErr 0 (errorBody errCode (Utf8.encode text))).header.opcode = opRespErr
        from rfl) hlen
    have htext : text ≠ [] := fun h => hne (h ▸ rfl)
    unfold rejection at hthrow
    rw [Utf8.decode_encode, if_neg htext] at hthrow
    exact hthrow
  | listing us entries =>
    refine ⟨_, listResult_listing us hm.1, ?_⟩
    rw [List.map_map]
    apply List.map_congr_left
    intro e he
    simp only [Function.comp_apply, fileInfo, Utf8.encode_decode_iff.mpr (hm.2 e he).2]
  | file us content => exact downloadResult_file us hm

theorem reads_error_frame (fd : ℕ) (errCode : UInt16) {msg : Bytes} (rest : Bytes)
    (hlen : msg.length < 65536) (hnul : 0 ∉ msg) :
    Reads (printSimpleResult fd
        (responseHeader opRespErr (UInt32.ofNat (errorBody errCode msg).length) 0))
      (errorBody errCode msg ++ rest) ⟨1, [.error errCode msg], none⟩ rest := by
  refine reads_error rest errCode rfl ?_ hlen hnul
  have hbody : (errorBody errCode msg).length = 4 + msg.length := by
    simp only [errorBody, writeU16, List.length_append, toBytes_length]
    omega
  simp only [responseHeader, hbody, UInt32.toNat_ofNat']
  omega

theorem command_recovers (hm : m.Admissible) (fd : ℕ) (rest : Bytes) :
    CommandRecovers fd (frame m.opcode m.elapsedUs m.body ++ rest) rest m := by
  cases m with
  | ok us =>
    rw [frame, List.append_assoc]
    exact (reads_header _ rfl rfl).bind (reads_ok rest us)
  | metrics us networkUs writeUs syncUs =>
    rw [frame, List.append_assoc]
    exact (reads_header _ rfl rfl).bind (reads_metrics rest us networkUs writeUs syncUs)
  | error errCode msg =>
    obtain ⟨-, hlen, hnul, -⟩ := hm
    have hprint := reads_error_frame fd errCode rest hlen hnul
    have hother := reads_other rest rfl rfl hprint
    rw [frame, List.append_assoc]
    exact ⟨(reads_header _ rfl rfl).bind hprint, hother.1 (show opRespErr ≠ _ by decide),
      hother.2 (show opRespErr ≠ _ by decide)⟩
  | listing us entries => exact reads_listing rest us hm.1 fun e he => (hm.2 e he).1
  | file us content =>
    intro out hopens hwritten
    have hcontent : content.length < 2 ^ 32 - 8 := hm
    have hread := reads_file fd rest out us (show content.length < 2 ^ 63 by omega) hopens
      hwritten (UInt32.ofNat (fileBody content).length)
    have hsplit : frame opRespFileData us (fileBody content) ++ rest =
        serializeHeader (responseHeader opRespFileData
          (UInt32.ofNat (fileBody content).length) us) ++
            (writeU64 (UInt64.ofNat content.length) ++ (content ++ rest)) := by
      rw [frame, fileBody, List.append_assoc, List.append_assoc]
    rw [← hsplit] at hread
    exact hread

theorem round_trips (hm : m.Admissible) :
    RoundTrips m (frame m.opcode m.elapsedUs m.body) := by
  have hsize := serializeHeader_length
    (responseHeader m.opcode (UInt32.ofNat m.body.length) m.elapsedUs)
  have hparse := parseHeader_serializeHeader
    (responseHeader m.opcode (UInt32.ofNat m.body.length) m.elapsedUs) [] rfl rfl
  have hdrop : (frame m.opcode m.elapsedUs m.body).drop nervfsHeaderSize = m.body :=
    List.drop_left' hsize
  have htake : (frame m.opcode m.elapsedUs m.body).take nervfsHeaderSize =
      serializeHeader (responseHeader m.opcode (UInt32.ofNat m.body.length) m.elapsedUs) :=
    List.take_left' hsize
  rw [List.append_nil] at hparse
  constructor
  · refine ⟨_, htake ▸ hparse, rfl, rfl, ?_⟩
    rw [hdrop]
    change (UInt32.ofNat m.body.length).toNat = _
    rw [UInt32.toNat_ofNat']
    exact Nat.mod_eq_of_lt hm.body_lt
  · intro chunks rest events hchunks
    have hverdict := verdict_frame m.opcode m.elapsedUs rest hm.body_lt
    rw [← hchunks] at hverdict
    exact ⟨_, readResponse_chunks events hverdict, rfl, rfl, hdrop.symm, bridge_recovers hm⟩
  · exact command_recovers hm

end Clients

/-- A response of the server is recovered whole by the bridge and by the command line
client. -/
theorem replies_round_trip {host : Host} {σ : Bytes → Node} {fd : ℕ} {m : Message}
    {p : Prog Unit} {l : Local} (hm : m.Admissible) (hp : SentBy σ fd m p) (hl : Steady l) :
    p.wp (semantics host).handle
      (fun _ s => ∃ bytes, s.2.sent = l.sent ++ bytes ∧ RoundTrips m bytes) (σ, l) :=
  Program.wp_mono (sentBy_wp hm hp hl) fun _ _ h => ⟨_, h, round_trips hm⟩

theorem notFound_admissible : (Message.error errNotFound msgNotFound).Admissible :=
  ⟨by decide, by decide, by decide, "file not found".toList, by decide⟩

theorem steady_start : Steady {} := ⟨nofun, nofun⟩

theorem replies_round_trip_notFound :
    (sendError 5 errNotFound msgNotFound).wp (semantics sampleHost).handle
      (fun _ s => ∃ bytes, s.2.sent = bytes ∧
        RoundTrips (.error errNotFound msgNotFound) bytes) (fun _ => {}, {}) :=
  replies_round_trip notFound_admissible (.error errNotFound msgNotFound) steady_start

end NervFS.Replies
