import NervFS.Requests

/-!
The operations that requests stand for. A payload carries at most one operation under
an opcode, and a request that is dispatched with the true length of its payload is
either refused for its payload or does what the operation asks for, under exactly the
name, the content and the mode that the payload carries.
-/
namespace NervFS.Operations

open Programs BigEndian Calls Protocol FileOps Handlers Requests

inductive Operation
  | upload (name body : Bytes)
  | download (name : Bytes)
  | list
  | delete (name : Bytes)
  | chmod (name : Bytes) (mode : UInt32)
  deriving DecidableEq

namespace Operation

def opcode : Operation → UInt16
  | upload _ _ => opReqUpload
  | download _ => opReqDownload
  | list => opReqList
  | delete _ => opReqDelete
  | chmod _ _ => opReqChmod

/-- The payloads that ask for the operation. A listing has no fields and its payload is
not looked at. -/
def Carries : Operation → Bytes → Prop
  | upload name body, payload =>
    name.length < 65536 ∧ body.length < 2 ^ 64 ∧ payload = uploadPayload name body
  | download name, payload => name.length < 65536 ∧ payload = namePayload name
  | list, _ => True
  | delete name, payload => name.length < 65536 ∧ payload = namePayload name
  | chmod name mode, payload => name.length < 65536 ∧ payload = chmodPayload name mode

end Operation

/-- The operation of a payload, or the text of the refusal. -/
def decode (opcode : UInt16) (payload : Bytes) : Except Bytes Operation :=
  if opcode = opReqUpload then
    (uploadFields payload).map fun fields => .upload fields.1 fields.2
  else if opcode = opReqDownload then
    (nameField msgDownloadTooShort msgDownloadMalformed payload).map .download
  else if opcode = opReqList then .ok .list
  else if opcode = opReqDelete then
    (nameField msgDeleteTooShort msgDeleteMalformed payload).map .delete
  else if opcode = opReqChmod then
    (chmodFields payload).map fun fields => .chmod fields.1 fields.2
  else .error msgUnknownOpcode

section Opcodes
variable (payload : Bytes)

theorem decode_upload : decode opReqUpload payload =
    (uploadFields payload).map fun fields => .upload fields.1 fields.2 := rfl

theorem decode_download : decode opReqDownload payload =
    (nameField msgDownloadTooShort msgDownloadMalformed payload).map .download := rfl

theorem decode_delete : decode opReqDelete payload =
    (nameField msgDeleteTooShort msgDeleteMalformed payload).map .delete := rfl

theorem decode_chmod : decode opReqChmod payload =
    (chmodFields payload).map fun fields => .chmod fields.1 fields.2 := rfl

end Opcodes

theorem nameLenOf_append {name : Bytes} (rest : Bytes) (h : name.length < 65536) :
    nameLenOf (toBytes 2 name.length ++ rest) = name.length := by
  unfold nameLenOf
  rw [List.take_left' (toBytes_length ..), ofBytes_toBytes_of_lt (by simpa using h)]

theorem drop_name {name : Bytes} (rest : Bytes) :
    (toBytes 2 name.length ++ (name ++ rest)).drop (2 + name.length) = rest := by
  rw [← List.append_assoc, List.drop_left' (by simp)]

theorem take_name {name : Bytes} (rest : Bytes) :
    ((toBytes 2 name.length ++ (name ++ rest)).drop 2).take name.length = name := by
  rw [List.drop_left' (toBytes_length ..), List.take_left' rfl]

/-- A payload that is long enough starts with its name under the length of the name. -/
theorem name_prefix (payload : Bytes) (h : 2 + nameLenOf payload ≤ payload.length) :
    ((payload.drop 2).take (nameLenOf payload)).length = nameLenOf payload ∧
      payload = toBytes 2 (nameLenOf payload) ++ ((payload.drop 2).take (nameLenOf payload) ++
        payload.drop (2 + nameLenOf payload)) := by
  have hlen : (payload.take 2).length = 2 := by
    rw [List.length_take]
    omega
  have hhead : toBytes 2 (nameLenOf payload) = payload.take 2 := toBytes_ofBytes_of_length hlen
  constructor
  · exact slice_length h
  · rw [hhead, ← List.drop_drop, List.take_append_drop, List.take_append_drop]

theorem uploadFields_ok_iff {payload name body : Bytes} :
    uploadFields payload = .ok (name, body) ↔
      name.length < 65536 ∧ body.length < 2 ^ 64 ∧ payload = uploadPayload name body := by
  constructor
  · intro h
    have hlt := nameLenOf_lt payload
    have hsize := declaredSize_lt payload (2 + nameLenOf payload)
    unfold uploadFields at h
    split_ifs at h with h2 h10 hmis
    cases h
    obtain ⟨hname, hsplit⟩ := name_prefix payload (by omega)
    have hrest := List.take_append_drop 8 (payload.drop (2 + nameLenOf payload))
    rw [List.drop_drop] at hrest
    have hbody : (payload.drop (2 + nameLenOf payload + 8)).length =
        ofBytes ((payload.drop (2 + nameLenOf payload)).take 8) := by
      rw [List.length_drop]
      exact not_not.mp hmis
    have h8 : ((payload.drop (2 + nameLenOf payload)).take 8).length = 8 :=
      slice_length (by omega)
    have hdeclared : toBytes 8 (payload.drop (2 + nameLenOf payload + 8)).length =
        (payload.drop (2 + nameLenOf payload)).take 8 := by
      rw [hbody, toBytes_ofBytes_of_length h8]
    refine ⟨by omega, by omega, ?_⟩
    unfold uploadPayload
    rw [hname, hdeclared, hrest]
    exact hsplit
  · rintro ⟨hname, hbody, rfl⟩
    have hn : nameLenOf (uploadPayload name body) = name.length := nameLenOf_append _ hname
    have hlen : (uploadPayload name body).length = 2 + name.length + 8 + body.length := by
      simp only [uploadPayload, List.length_append, toBytes_length]
      omega
    have hdrop : (uploadPayload name body).drop (2 + name.length) =
        toBytes 8 body.length ++ body := drop_name _
    have hdrop8 : (uploadPayload name body).drop (2 + name.length + 8) = body := by
      rw [← List.drop_drop, hdrop, List.drop_left' (toBytes_length ..)]
    have hsize : ofBytes (((uploadPayload name body).drop (2 + name.length)).take 8) =
        body.length := by
      rw [hdrop, List.take_left' (toBytes_length ..), ofBytes_toBytes_of_lt (by simpa using hbody)]
    have htake : ((uploadPayload name body).drop 2).take name.length = name := take_name _
    unfold uploadFields
    rw [hn, hsize, hdrop8, htake, if_neg (by omega), if_neg (by omega), if_neg (by omega)]

theorem nameField_ok_iff {tooShort malformed payload name : Bytes} :
    nameField tooShort malformed payload = .ok name ↔
      name.length < 65536 ∧ payload = namePayload name := by
  constructor
  · intro h
    have hlt := nameLenOf_lt payload
    unfold nameField at h
    split_ifs at h with h2 hmal
    cases h
    obtain ⟨hname, hsplit⟩ := name_prefix payload (by omega)
    have hnil : payload.drop (2 + nameLenOf payload) = [] := List.drop_eq_nil_of_le (by omega)
    rw [hnil, List.append_nil] at hsplit
    refine ⟨by omega, ?_⟩
    unfold namePayload
    rw [hname]
    exact hsplit
  · rintro ⟨hname, rfl⟩
    have hn : nameLenOf (namePayload name) = name.length := nameLenOf_append _ hname
    have hlen : (namePayload name).length = 2 + name.length := by
      simp only [namePayload, List.length_append, toBytes_length]
    have htake : ((namePayload name).drop 2).take name.length = name := by
      rw [namePayload, List.drop_left' (toBytes_length ..), List.take_length]
    unfold nameField
    rw [hn, htake, if_neg (by omega), if_neg (by omega)]

theorem chmodFields_ok_iff {payload name : Bytes} {mode : UInt32} :
    chmodFields payload = .ok (name, mode) ↔
      name.length < 65536 ∧ payload = chmodPayload name mode := by
  constructor
  · intro h
    have hlt := nameLenOf_lt payload
    unfold chmodFields at h
    split_ifs at h with h2 hmal
    cases h
    obtain ⟨hname, hsplit⟩ := name_prefix payload (by omega)
    have h4 : (payload.drop (2 + nameLenOf payload)).length = 4 := by
      rw [List.length_drop]
      omega
    have hmode : toBytes 4 (UInt32.ofNat
        (ofBytes ((payload.drop (2 + nameLenOf payload)).take 4))).toNat =
        payload.drop (2 + nameLenOf payload) := by
      rw [List.take_of_length_le (by omega), UInt32.toNat_ofNat']
      exact toBytes_ofBytes_mod h4
    refine ⟨by omega, ?_⟩
    unfold chmodPayload
    rw [hname, hmode]
    exact hsplit
  · rintro ⟨hname, rfl⟩
    have hmode := mode.toNat_lt
    have hn : nameLenOf (chmodPayload name mode) = name.length := nameLenOf_append _ hname
    have hlen : (chmodPayload name mode).length = 2 + name.length + 4 := by
      simp only [chmodPayload, List.length_append, toBytes_length]
      omega
    have hdrop : (chmodPayload name mode).drop (2 + name.length) = toBytes 4 mode.toNat :=
      drop_name _
    have htake : ((chmodPayload name mode).drop 2).take name.length = name := take_name _
    unfold chmodFields
    rw [hn, htake, hdrop, List.take_of_length_le (by simp), if_neg (by omega), if_neg (by omega),
      ofBytes_toBytes_of_lt (by simpa using hmode), UInt32.ofNat_toNat]

theorem map_ok_iff {ε α β : Type} {fields : Except ε α} {f : α → β} {b : β} :
    fields.map f = .ok b ↔ ∃ a, fields = .ok a ∧ f a = b := by
  cases fields with
  | error e => simp [Except.map]
  | ok a => simp [Except.map]

theorem decode_ok_iff {opcode : UInt16} {payload : Bytes} {op : Operation} :
    decode opcode payload = .ok op ↔ op.opcode = opcode ∧ op.Carries payload := by
  constructor
  · intro h
    unfold decode at h
    split_ifs at h with h1 h2 h3 h4 h5
    · obtain ⟨⟨name, body⟩, hf, rfl⟩ := map_ok_iff.mp h
      exact ⟨h1.symm, uploadFields_ok_iff.mp hf⟩
    · obtain ⟨name, hf, rfl⟩ := map_ok_iff.mp h
      exact ⟨h2.symm, nameField_ok_iff.mp hf⟩
    · cases h
      exact ⟨h3.symm, trivial⟩
    · obtain ⟨name, hf, rfl⟩ := map_ok_iff.mp h
      exact ⟨h4.symm, nameField_ok_iff.mp hf⟩
    · obtain ⟨⟨name, mode⟩, hf, rfl⟩ := map_ok_iff.mp h
      exact ⟨h5.symm, chmodFields_ok_iff.mp hf⟩
  · rintro ⟨rfl, hc⟩
    cases op with
    | upload name body =>
      exact map_ok_iff.mpr ⟨(name, body), uploadFields_ok_iff.mpr hc, rfl⟩
    | download name => exact map_ok_iff.mpr ⟨name, nameField_ok_iff.mpr hc, rfl⟩
    | list => rfl
    | delete name => exact map_ok_iff.mpr ⟨name, nameField_ok_iff.mpr hc, rfl⟩
    | chmod name mode => exact map_ok_iff.mpr ⟨(name, mode), chmodFields_ok_iff.mpr hc, rfl⟩

/-- The refusals of a payload fit the 16 bit length of a message. -/
theorem decode_error_length {opcode : UInt16} {payload msg : Bytes}
    (h : decode opcode payload = .error msg) : msg.length < 65536 := by
  have hmap : ∀ {α : Type} {fields : Except Bytes α} {f : α → Operation},
      fields.map f = .error msg → fields = .error msg := by
    intro α fields f hf
    cases fields with
    | error e => exact congrArg _ (Except.error.inj hf)
    | ok a => cases hf
  unfold decode at h
  split_ifs at h
  · exact uploadFields_error_length (hmap h)
  · exact nameField_error_length (by decide) (by decide) (congrArg (Except.map _) (hmap h))
  · exact nameField_error_length (by decide) (by decide) (congrArg (Except.map _) (hmap h))
  · exact chmodFields_error_length (hmap h)
  · cases h
    decide

/-- What a handler does with the name of a payload that it has accepted. -/
def resolved (root : Bytes) (clientFd : ℕ) (name : Bytes) (act : Bytes → Prog Unit) : Prog Unit :=
  match safeResolvePath root name pathMax with
  | none => sendError clientFd errForbidden msgInvalidFilename
  | some path => act path

def serve (root : Bytes) (clientFd : ℕ) (netStart : Timespec) : Operation → Prog Unit
  | .upload name body => do
    let netEnd ← clockGettime
    resolved root clientFd name fun path =>
      uploadAct clientFd (elapsedMicroseconds netStart netEnd) path name body
  | .download name => resolved root clientFd name fun path => downloadAct clientFd path name
  | .list => handleList root clientFd
  | .delete name => resolved root clientFd name fun path => deleteAct clientFd path name
  | .chmod name mode => resolved root clientFd name fun path => chmodAct clientFd path name mode

/-- Turning a payload down; an upload has read the clock before. -/
def refuse (clientFd : ℕ) (opcode : UInt16) (msg : Bytes) : Prog Unit :=
  if opcode = opReqUpload then do
    let _ ← clockGettime
    sendError clientFd errBadRequest msg
  else sendError clientFd errBadRequest msg

def answer (root : Bytes) (clientFd : ℕ) (netStart : Timespec) (opcode : UInt16)
    (payload : Bytes) : Prog Unit :=
  match decode opcode payload with
  | .error msg => refuse clientFd opcode msg
  | .ok op => serve root clientFd netStart op

section Handlers
variable (root : Bytes) (clientFd : ℕ) {payload : Bytes} {payloadLen : UInt32}
variable (netStart : Timespec)

theorem handleUploadTimed_answer (hlen : payloadLen.toNat = payload.length) :
    handleUploadTimed root clientFd payload payloadLen netStart =
      answer root clientFd netStart opReqUpload payload := by
  rw [handleUploadTimed_eq _ _ _ _ _ hlen]
  unfold answer
  rw [decode_upload]
  cases uploadFields payload with
  | error msg => rfl
  | ok fields => rfl

theorem handleDownload_answer (hlen : payloadLen.toNat = payload.length) :
    handleDownload root clientFd payload payloadLen =
      answer root clientFd netStart opReqDownload payload := by
  rw [handleDownload_eq _ _ _ _ hlen]
  unfold answer
  rw [decode_download]
  cases nameField msgDownloadTooShort msgDownloadMalformed payload with
  | error msg => rfl
  | ok name => rfl

theorem handleDelete_answer (hlen : payloadLen.toNat = payload.length) :
    handleDelete root clientFd payload payloadLen =
      answer root clientFd netStart opReqDelete payload := by
  rw [handleDelete_eq _ _ _ _ hlen]
  unfold answer
  rw [decode_delete]
  cases nameField msgDeleteTooShort msgDeleteMalformed payload with
  | error msg => rfl
  | ok name => rfl

theorem handleChmod_answer (hlen : payloadLen.toNat = payload.length) :
    handleChmod root clientFd payload payloadLen =
      answer root clientFd netStart opReqChmod payload := by
  rw [handleChmod_eq _ _ _ _ hlen]
  unfold answer
  rw [decode_chmod]
  cases chmodFields payload with
  | error msg => rfl
  | ok fields => rfl

/-- A request with the true length of its payload is served as the operation it carries. -/
theorem dispatchRequestTimed_eq (header : Header)
    (hlen : header.payloadLen.toNat = payload.length) :
    dispatchRequestTimed root clientFd header payload netStart =
      invoke (.dispatch header.opcode) >>= fun _ =>
        answer root clientFd netStart header.opcode payload := by
  unfold dispatchRequestTimed
  congr 1
  funext _
  split_ifs with h1 h2 h3 h4 h5
  · rw [h1]
    exact handleUploadTimed_answer root clientFd netStart hlen
  · rw [h2]
    exact handleDownload_answer root clientFd netStart hlen
  · rw [h3]
    rfl
  · rw [h4]
    exact handleDelete_answer root clientFd netStart hlen
  · rw [h5]
    exact handleChmod_answer root clientFd netStart hlen
  · have hdecode : decode header.opcode payload = .error msgUnknownOpcode := by
      unfold decode
      rw [if_neg h1, if_neg h2, if_neg h3, if_neg h4, if_neg h5]
    unfold answer
    rw [hdecode]
    exact (if_neg h1).symm

end Handlers

/-- The server takes the bytes for one request and serves the operation: the header parses,
the payload that it announces is all that follows, the fields of the payload are those of
the operation, and the handler acts on them. -/
def ServedAs (frame : Bytes) (op : Operation) : Prop :=
  ∃ header, Protocol.parseHeader (frame.take nervfsHeaderSize) = some header ∧
    header.opcode = op.opcode ∧
    header.payloadLen.toNat = (frame.drop nervfsHeaderSize).length ∧
    decode header.opcode (frame.drop nervfsHeaderSize) = .ok op ∧
    ∀ root clientFd netStart,
      dispatchRequestTimed root clientFd header (frame.drop nervfsHeaderSize) netStart =
        invoke (.dispatch op.opcode) >>= fun _ => serve root clientFd netStart op

/-- The header of a request. -/
def requestHeader (opcode : UInt16) (payloadLen : UInt32) : Header where
  magic := nervfsMagic
  version := nervfsVersion
  opcode := opcode
  payloadLen := payloadLen
  reserved := 0

theorem servedAs_of_carries {op : Operation} {payload : Bytes} (hlen : payload.length < 2 ^ 32)
    (hc : op.Carries payload) :
    ServedAs (serializeHeader (requestHeader op.opcode (UInt32.ofNat payload.length)) ++ payload)
      op := by
  have hnat : (UInt32.ofNat payload.length).toNat = payload.length := UInt32.toNat_ofNat_of_lt' hlen
  have hsize := serializeHeader_length (requestHeader op.opcode (UInt32.ofNat payload.length))
  have hparse := parseHeader_serializeHeader
    (requestHeader op.opcode (UInt32.ofNat payload.length)) [] rfl rfl
  rw [List.append_nil] at hparse
  unfold ServedAs
  rw [List.take_left' hsize, List.drop_left' hsize]
  have hdecode : decode op.opcode payload = .ok op := decode_ok_iff.mpr ⟨rfl, hc⟩
  refine ⟨_, hparse, rfl, hnat, hdecode, fun root clientFd netStart => ?_⟩
  rw [dispatchRequestTimed_eq root clientFd netStart _ hnat]
  simp only [answer, requestHeader, hdecode]

/-- The name that an operation is about; a listing is about none. -/
def nameOf : Operation → Bytes
  | .upload name _ => name
  | .download name => name
  | .list => []
  | .delete name => name
  | .chmod name _ => name

def payloadOf : Operation → Bytes
  | .upload name body => uploadPayload name body
  | .download name => namePayload name
  | .list => []
  | .delete name => namePayload name
  | .chmod name mode => chmodPayload name mode

/-- A length of the operation does not fit its field on the wire. -/
def TooLong (op : Operation) : Prop :=
  65535 < (nameOf op).length ∨ 2 ^ 32 - 1 < (payloadOf op).length

theorem carries_payloadOf {op : Operation} (h : ¬ TooLong op) : op.Carries (payloadOf op) := by
  unfold TooLong at h
  cases op with
  | upload name body =>
    have hlen : (uploadPayload name body).length = 2 + (name.length + (8 + body.length)) := by
      simp only [uploadPayload, List.length_append, toBytes_length]
    simp only [nameOf, payloadOf] at h
    exact ⟨by omega, by omega, rfl⟩
  | list => trivial
  | download name =>
    simp only [nameOf] at h
    exact ⟨by omega, rfl⟩
  | delete name =>
    simp only [nameOf] at h
    exact ⟨by omega, rfl⟩
  | chmod name mode =>
    simp only [nameOf] at h
    exact ⟨by omega, rfl⟩

theorem servedAs_payloadOf {op : Operation} (h : ¬ TooLong op) :
    ServedAs (serializeHeader (requestHeader op.opcode (UInt32.ofNat (payloadOf op).length)) ++
      payloadOf op) op := by
  apply servedAs_of_carries
  · have hlen := (not_or.mp h).2
    omega
  · exact carries_payloadOf h

theorem payloadOf_of_carries {op : Operation} {payload : Bytes} (hc : op.Carries payload)
    (hlist : op ≠ .list) : (nameOf op).length < 65536 ∧ payload = payloadOf op := by
  cases op with
  | upload name body => exact ⟨hc.1, hc.2.2⟩
  | download name => exact hc
  | list => exact absurd rfl hlist
  | delete name => exact hc
  | chmod name mode => exact hc

theorem not_tooLong_of_servedAs {op : Operation} {frame : Bytes} (h : ServedAs frame op) :
    ¬ TooLong op := by
  obtain ⟨header, -, -, hlen, hdecode, -⟩ := h
  have hlt := header.payloadLen.toNat_lt
  by_cases hlist : op = .list
  · subst hlist
    unfold TooLong nameOf payloadOf
    simp
  · obtain ⟨hname, hpayload⟩ := payloadOf_of_carries (decode_ok_iff.mp hdecode).2 hlist
    rw [hpayload] at hlen
    unfold TooLong
    omega

end NervFS.Operations
