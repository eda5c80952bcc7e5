import NervFS.Operations
import NervFS.Responses

/-!
The parsers of the four handlers that have fields to read. They accept exactly the
encodings of their operations, go on with exactly the encoded fields, and turn
everything else down with 400 before they take a lock or touch a file. No read leaves
the payload, no copy leaves the name buffer and no offset wraps around.
-/
namespace NervFS.Parsers

open Programs KeyedStore KeyedStore.Semantics BigEndian Calls Protocol FileOps Handlers Requests
open Kernel Responses Operations

/-- The program answers 400 and makes no other call, but for a look at the clock. -/
def Refuses (clientFd : ℕ) (p : Prog Unit) : Prop :=
  ∃ msg : Bytes, msg.length < 65536 ∧ (p = sendError clientFd errBadRequest msg ∨
    p = clockGettime >>= fun _ => sendError clientFd errBadRequest msg)

/-- The calls of a refusal. -/
def RefusalCall (clientFd : ℕ) (e : Call) : Prop := SendsError clientFd e ∨ e = .clockGettime

/-- What a handler makes of a payload: it passes its checks exactly when the payload
carries an operation, which it then serves; else it refuses. It is never stuck. -/
structure ParsesExactly (root : Bytes) (clientFd : ℕ) (netStart : Timespec) (opcode : UInt16)
    (payload : Bytes) (handler : Prog Unit) : Prop where
  passes_iff : ¬ Refuses clientFd handler ↔
    ∃ op : Operation, op.opcode = opcode ∧ op.Carries payload
  works : ∀ op : Operation, op.opcode = opcode → op.Carries payload →
    handler = serve root clientFd netStart op
  refuses : (∀ op : Operation, op.opcode = opcode → ¬ op.Carries payload) →
    Refuses clientFd handler ∧ handler.All (RefusalCall clientFd)
  in_bounds : handler.All fun _ => True

/-- The sums and the difference that the handlers compute in 32 bits, from a name length
that the payload declares, are the true ones. -/
structure ExactOffsets (payload : Bytes) (payloadLen : UInt32) : Prop where
  nameEnd : ∀ nameLen : UInt16, (2 + nameLen.toUInt32).toNat = 2 + nameLen.toNat
  modeEnd : ∀ nameLen : UInt16, (2 + nameLen.toUInt32 + 4).toNat = 2 + nameLen.toNat + 4
  sizeEnd : ∀ nameLen : UInt16, (2 + nameLen.toUInt32 + 8).toNat = 2 + nameLen.toNat + 8
  bodyLen : ∀ nameLen : UInt16, ¬ payloadLen < 2 + nameLen.toUInt32 + 8 →
    2 + nameLen.toNat + 8 ≤ payload.length ∧
      (payloadLen - (2 + nameLen.toUInt32 + 8)).toNat = payload.length - (2 + nameLen.toNat + 8)

theorem errorFrame_code {code code' : UInt16} {msg msg' : Bytes}
    (h : errorFrame code msg = errorFrame code' msg') : code = code' := by
  have hbody : ∀ (c : UInt16) (m : Bytes),
      ((errorFrame c m).drop nervfsHeaderSize).take 2 = writeU16 c := by
    intro c m
    rw [errorFrame, frame, List.drop_left' (serializeHeader_length _), writeU16,
      List.take_left' (toBytes_length ..)]
  have hcode : writeU16 code = writeU16 code' := by rw [← hbody code msg, h, hbody]
  have hlt : ∀ c : UInt16, c.toNat < 256 ^ 2 := fun c => c.toNat_lt
  apply UInt16.toNat_inj.mp
  rw [← ofBytes_toBytes_of_lt (hlt code), ← ofBytes_toBytes_of_lt (hlt code')]
  exact congrArg ofBytes hcode

/-- A host for the runs that tell two programs apart. -/
def anyHost : Host where
  root := []
  umask := 0
  permits _ _ := true

theorem sendError_code {clientFd : ℕ} {code code' : UInt16} {msg msg' : Bytes}
    (hmsg : msg.length < 65536) (hmsg' : msg'.length < 65536)
    (h : sendError clientFd code msg = sendError clientFd code' msg') : code = code' := by
  have hsteady : Steady {} := ⟨nofun, nofun⟩
  have hsent : ∀ (c : UInt16) (m : Bytes), m.length < 65536 →
      (sendError clientFd c m).wp (semantics anyHost).handle
        (fun _ q => q.2.sent = errorFrame c m) (fun _ => {}, {}) :=
    fun c m hm => sendError_steady_wp c m hm hsteady fun _ hl => hl
  obtain ⟨_, q, _, hq, hq'⟩ := Program.wp_and (hsent code msg hmsg) (h ▸ hsent code' msg' hmsg')
  exact errorFrame_code (hq.symm.trans hq')

/-- A handler that has accepted its payload answers 403 or asks for a lock. -/
theorem resolved_ne (root : Bytes) {clientFd : ℕ} (name : Bytes) {act : Bytes → Prog Unit}
    (hact : ∀ path, ∃ kind, (act path).next? = some (.lockAcquire kind name)) {msg : Bytes}
    (hmsg : msg.length < 65536) :
    resolved root clientFd name act ≠ sendError clientFd errBadRequest msg := by
  intro h
  unfold resolved at h
  split at h
  · exact absurd (sendError_code (by decide) hmsg h) (by decide)
  · next path _ =>
    obtain ⟨kind, hkind⟩ := hact path
    rw [h] at hkind
    cases hkind

theorem resolved_not_refuses (root : Bytes) {clientFd : ℕ} (name : Bytes)
    {act : Bytes → Prog Unit}
    (hact : ∀ path, ∃ kind, (act path).next? = some (.lockAcquire kind name)) :
    ¬ Refuses clientFd (resolved root clientFd name act) := by
  rintro ⟨msg, hmsg, h | h⟩
  · exact resolved_ne root name hact hmsg h
  · have hnext := congrArg Program.next? h
    unfold resolved at hnext
    split at hnext
    · cases hnext
    · next path _ =>
      obtain ⟨kind, hkind⟩ := hact path
      rw [hkind] at hnext
      cases hnext

theorem serve_not_refuses (root : Bytes) (clientFd : ℕ) (netStart : Timespec) {op : Operation}
    (hop : op.opcode ≠ opReqList) : ¬ Refuses clientFd (serve root clientFd netStart op) := by
  cases op with
  | upload name body =>
    rintro ⟨msg, hmsg, h | h⟩
    · cases congrArg Program.next? h
    · injection h with _ hk
      exact resolved_ne root name (fun path => ⟨.write, rfl⟩) hmsg (congrFun hk ⟨0, 0⟩)
  | download name => exact resolved_not_refuses root name fun path => ⟨.read, rfl⟩
  | list => exact absurd rfl hop
  | delete name => exact resolved_not_refuses root name fun path => ⟨.write, rfl⟩
  | chmod name mode => exact resolved_not_refuses root name fun path => ⟨.write, rfl⟩

theorem refuse_refuses (clientFd : ℕ) (opcode : UInt16) {msg : Bytes} (hmsg : msg.length < 65536) :
    Refuses clientFd (refuse clientFd opcode msg) ∧
      (refuse clientFd opcode msg).All (RefusalCall clientFd) := by
  have hall : (sendError clientFd errBadRequest msg).All (RefusalCall clientFd) :=
    (sendError_all clientFd errBadRequest msg hmsg).mono fun _ he => Or.inl he
  unfold refuse
  split
  · exact ⟨⟨msg, hmsg, Or.inr rfl⟩, Or.inr rfl, fun _ => hall⟩
  · exact ⟨⟨msg, hmsg, Or.inl rfl⟩, hall⟩

section Bounds
variable (clientFd : ℕ) (path name : Bytes)

theorem sendError_bounds (code : UInt16) (msg : Bytes) (hmsg : msg.length < 65536) :
    (sendError clientFd code msg).All fun _ => True :=
  (sendError_all clientFd code msg hmsg).mono fun _ _ => trivial

theorem sendMessage_bounds (opcode : UInt16) {body : Bytes} {payloadLen : UInt32} (us : UInt64)
    (h : payloadLen.toNat ≤ body.length) :
    (sendMessage clientFd opcode (some body) payloadLen us).All fun _ => True := by
  refine (sendMessage_all clientFd opcode (some body) payloadLen us ?_).mono fun _ _ => trivial
  intro buf hbuf
  cases hbuf
  exact h

theorem sendOk_bounds (us : UInt64) : (sendOk clientFd us).All fun _ => True :=
  (sendMessage_all clientFd opRespOk none 0 us nofun).mono fun _ _ => trivial

theorem uploadAct_bounds (networkUs : UInt64) (body : Bytes) :
    (uploadAct clientFd networkUs path name body).All fun _ => True := by
  have herr : ∀ (code : UInt16) (msg : Bytes), msg.length < 65536 →
      (sendError clientFd code msg).All fun _ => True := sendError_bounds clientFd
  simp only [uploadAct, uploadLocked, Program.pure_eq, Program.bind_unit]
  refine ⟨trivial, fun _ => ⟨trivial, fun _ => ⟨trivial, fun fd => ?_⟩⟩⟩
  cases fd with
  | none => exact ⟨trivial, fun _ => herr _ msgOpenFailed (by decide)⟩
  | some fd =>
    refine ⟨trivial, fun locked => ?_⟩
    change Program.All _ (if (!locked) = true then _ else _)
    split
    · exact ⟨trivial, fun _ => ⟨trivial, fun _ => herr _ msgLockFailed (by decide)⟩⟩
    · refine ⟨trivial, fun written => ⟨trivial, fun _ => ?_⟩⟩
      change Program.All _ (if written ≠ _ then _ else _)
      split
      · exact ⟨trivial, fun _ => ⟨trivial, fun _ => ⟨trivial, fun _ =>
          herr _ msgWriteFailed (by decide)⟩⟩⟩
      · refine ⟨trivial, fun _ => ⟨trivial, fun _ => ⟨trivial, fun _ => ⟨trivial, fun _ =>
          ⟨trivial, fun _ => ?_⟩⟩⟩⟩⟩
        apply sendMessage_bounds
        simp [writeU64]

theorem fileopsCloseMmap_bounds (map : Option Mapping) (size : ℕ) (fd : Fd) :
    (fileopsCloseMmap map size fd).All fun _ => True := by
  unfold fileopsCloseMmap
  cases map with
  | none => exact ⟨trivial, fun _ => trivial⟩
  | some m =>
    dsimp only
    split
    · exact ⟨trivial, fun _ => ⟨trivial, fun _ => trivial⟩⟩
    · exact ⟨trivial, fun _ => trivial⟩

theorem downloadBody_bounds (map : Option Mapping) (size : ℕ) (fd : Fd) (us : UInt64) :
    (downloadBody clientFd name map size fd us).All fun _ => True := by
  have hsend : ∀ buf : Buffer, (sendFull clientFd buf).All fun _ => True :=
    fun buf => sendFull_all clientFd buf fun _ => trivial
  have hclose : (fileopsUnlockFd fd >>= fun _ => fileopsCloseMmap map size fd >>= fun _ =>
      fileopsLockReleaseRead name).All fun _ => True :=
    ⟨trivial, fun _ => (fileopsCloseMmap_bounds map size fd).bind fun _ =>
      ⟨trivial, fun _ => trivial⟩⟩
  unfold downloadBody
  refine ⟨trivial, fun _ => (hsend _).bind fun _ => (hsend _).bind fun _ => ?_⟩
  cases map with
  | none => exact hclose
  | some m =>
    dsimp only
    split
    · exact (hsend _).bind fun _ => hclose
    · exact hclose

theorem fileopsOpenForMmapRead_bounds : (fileopsOpenForMmapRead path).All fun _ => True := by
  unfold fileopsOpenForMmapRead
  refine ⟨trivial, fun opened => ?_⟩
  cases opened with
  | none => trivial
  | some fd =>
    refine ⟨trivial, fun size => ?_⟩
    cases size with
    | none => exact ⟨trivial, fun _ => trivial⟩
    | some size =>
      change Program.All _ (if size = 0 then _ else _)
      split
      · trivial
      · refine ⟨trivial, fun map => ?_⟩
        cases map with
        | none => exact ⟨trivial, fun _ => trivial⟩
        | some map => trivial

theorem downloadAct_bounds : (downloadAct clientFd path name).All fun _ => True := by
  unfold downloadAct downloadLocked
  refine ⟨trivial, fun _ => ⟨trivial, fun _ => (fileopsOpenForMmapRead_bounds path).bind fun rc =>
    ⟨trivial, fun _ => ?_⟩⟩⟩
  cases rc with
  | opened map size fd => exact downloadBody_bounds clientFd name map size fd _
  | notFound =>
    exact ⟨trivial, fun _ => sendError_bounds clientFd _ msgNotFound (by decide)⟩
  | mapFailed =>
    exact ⟨trivial, fun _ => sendError_bounds clientFd _ msgMapFailed (by decide)⟩

theorem deleteAct_bounds : (deleteAct clientFd path name).All fun _ => True := by
  simp only [deleteAct, Program.pure_eq, Program.bind_unit]
  refine ⟨trivial, fun _ => ⟨trivial, fun _ => ⟨trivial, fun rc => ⟨trivial, fun _ => ⟨trivial,
    fun _ => ?_⟩⟩⟩⟩⟩
  change Program.All _ (if (!rc) = true then _ else _)
  split
  · exact sendError_bounds clientFd _ msgNotFound (by decide)
  · exact sendOk_bounds clientFd _

theorem chmodAct_bounds (mode : UInt32) :
    (chmodAct clientFd path name mode).All fun _ => True := by
  simp only [chmodAct, Program.pure_eq, Program.bind_unit]
  refine ⟨trivial, fun _ => ⟨trivial, fun _ => ⟨trivial, fun rc => ⟨trivial, fun _ => ⟨trivial,
    fun _ => ?_⟩⟩⟩⟩⟩
  change Program.All _ (if (!rc) = true then _ else _)
  split
  · exact sendError_bounds clientFd _ msgNotFound (by decide)
  · exact sendOk_bounds clientFd _

theorem resolved_bounds (root : Bytes) {act : Bytes → Prog Unit}
    (hact : ∀ path, (act path).All fun _ => True) :
    (resolved root clientFd name act).All fun _ => True := by
  unfold resolved
  split
  · exact sendError_bounds clientFd _ msgInvalidFilename (by decide)
  · exact hact _

theorem serve_bounds (root : Bytes) (netStart : Timespec) {op : Operation}
    (hop : op.opcode ≠ opReqList) : (serve root clientFd netStart op).All fun _ => True := by
  cases op with
  | upload name body =>
    exact ⟨trivial, fun _ => resolved_bounds clientFd name root fun path =>
      uploadAct_bounds clientFd path name _ body⟩
  | download name =>
    exact resolved_bounds clientFd name root fun path => downloadAct_bounds clientFd path name
  | list => exact absurd rfl hop
  | delete name =>
    exact resolved_bounds clientFd name root fun path => deleteAct_bounds clientFd path name
  | chmod name mode =>
    exact resolved_bounds clientFd name root fun path => chmodAct_bounds clientFd path name mode

end Bounds

theorem answer_parsesExactly (root : Bytes) (clientFd : ℕ) (netStart : Timespec)
    (payload : Bytes) (opcode : UInt16) (hop : opcode ≠ opReqList) :
    ParsesExactly root clientFd netStart opcode payload
      (answer root clientFd netStart opcode payload) := by
  cases hd : decode opcode payload with
  | error msg =>
    have hmsg := decode_error_length hd
    have hnone : ∀ op : Operation, op.opcode = opcode → ¬ op.Carries payload := by
      intro op ho hc
      rw [decode_ok_iff.mpr ⟨ho, hc⟩] at hd
      cases hd
    have hanswer : answer root clientFd netStart opcode payload = refuse clientFd opcode msg := by
      simp only [answer, hd]
    obtain ⟨hrefuses, hall⟩ := refuse_refuses clientFd opcode hmsg
    rw [hanswer]
    refine ⟨?_, fun op ho hc => absurd hc (hnone op ho), fun _ => ⟨hrefuses, hall⟩,
      hall.mono fun _ _ => trivial⟩
    apply iff_of_false (not_not.mpr hrefuses)
    intro hcarried
    obtain ⟨op, ho, hc⟩ := hcarried
    exact hnone op ho hc
  | ok op =>
    obtain ⟨ho, hc⟩ := decode_ok_iff.mp hd
    have hanswer : answer root clientFd netStart opcode payload =
        serve root clientFd netStart op := by
      simp only [answer, hd]
    have hlist : op.opcode ≠ opReqList := by rwa [ho]
    rw [hanswer]
    refine ⟨?_, fun op' ho' hc' => ?_, fun hnone => absurd hc (hnone op ho),
      serve_bounds clientFd root netStart hlist⟩
    · exact iff_of_true (serve_not_refuses root clientFd netStart hlist) ⟨op, ho, hc⟩
    · rw [decode_ok_iff.mpr ⟨ho', hc'⟩] at hd
      cases hd
      rfl

theorem exactOffsets {payload : Bytes} {payloadLen : UInt32}
    (hlen : payloadLen.toNat = payload.length) : ExactOffsets payload payloadLen := by
  have hsum : ∀ (nameLen : UInt16) (k : UInt32), k.toNat ≤ 8 →
      (2 + nameLen.toUInt32 + k).toNat = 2 + nameLen.toNat + k.toNat := by
    intro nameLen k hk
    have h := offset_toNat nameLen.toNat_lt k hk
    rwa [UInt16.ofNat_toNat] at h
  refine ⟨fun nameLen => ?_, fun nameLen => hsum nameLen 4 (by decide),
    fun nameLen => hsum nameLen 8 (by decide), fun nameLen h => ?_⟩
  · have h := nameEnd_toNat nameLen.toNat_lt
    rwa [UInt16.ofNat_toNat] at h
  · have h8 := hsum nameLen 8 (by decide)
    have hle : 2 + nameLen.toUInt32 + 8 ≤ payloadLen := UInt32.not_lt.mp h
    have hnat := UInt32.le_iff_toNat_le.mp hle
    rw [h8, hlen] at hnat
    refine ⟨hnat, ?_⟩
    rw [UInt32.toNat_sub_of_le _ _ hle, h8, hlen]
    rfl

/-- The four parsers, on every payload of the announced length. -/
theorem parsers_exact (root : Bytes) (clientFd : ℕ) (payload : Bytes) (payloadLen : UInt32)
    (netStart : Timespec) (hlen : payloadLen.toNat = payload.length) :
    ParsesExactly root clientFd netStart opReqUpload payload
        (handleUploadTimed root clientFd payload payloadLen netStart) ∧
      ParsesExactly root clientFd netStart opReqDownload payload
        (handleDownload root clientFd payload payloadLen) ∧
      ParsesExactly root clientFd netStart opReqDelete payload
        (handleDelete root clientFd payload payloadLen) ∧
      ParsesExactly root clientFd netStart opReqChmod payload
        (handleChmod root clientFd payload payloadLen) ∧
      ExactOffsets payload payloadLen := by
  rw [handleUploadTimed_answer root clientFd netStart hlen,
    handleDownload_answer root clientFd netStart hlen,
    handleDelete_answer root clientFd netStart hlen, handleChmod_answer root clientFd netStart hlen]
  have hexact := answer_parsesExactly root clientFd netStart payload
  exact ⟨hexact _ (by decide), hexact _ (by decide), hexact _ (by decide), hexact _ (by decide),
    exactOffsets hlen⟩

/-- A payload that is accepted and one that is not. -/
theorem parsers_exact_delete :
    handleDelete [slash] 5 (namePayload [0x61]) 3 = serve [slash] 5 ⟨0, 0⟩ (.delete [0x61]) ∧
      Refuses 5 (handleUploadTimed [slash] 5 [0, 1, 0x61] 3 ⟨0, 0⟩) := by
  constructor
  · obtain ⟨-, -, hdelete, -, -⟩ :=
      parsers_exact [slash] 5 (namePayload [0x61]) 3 ⟨0, 0⟩ (by decide)
    exact hdelete.works (.delete [0x61]) rfl ⟨by decide, rfl⟩
  · obtain ⟨hupload, -⟩ := parsers_exact [slash] 5 [0, 1, 0x61] 3 ⟨0, 0⟩ (by decide)
    refine (hupload.refuses fun op hop hc => ?_).1
    have herror : decode opReqUpload [0, 1, 0x61] = .error msgUploadTruncated := by
      simp [decode_upload, uploadFields, nameLenOf, ofBytes, Except.map]
    rw [decode_ok_iff.mpr ⟨hop, hc⟩] at herror
    cases herror

end NervFS.Parsers
