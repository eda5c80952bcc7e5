import NervFS.BridgeFrames
import NervFS.BridgeReader
import NervFS.ListDecoding

/-!
The responses of the server as the bridge takes them apart. Every field of a body is read
where the server has put it, so a call recovers what was sent; texts are recovered when
they are well-formed UTF-8.
-/
namespace NervFS.BridgeReplies

open BigEndian Calls Protocol FileOps Handlers Requests Operations NodeBuffer Bridge
open BridgeFrames BridgeReader Responses Listings ListDecoding PrefixCodes

/-- The response that a frame of the server is read as. -/
def received (opcode : UInt16) (elapsedUs : UInt64) (body : Bytes) : Response :=
  ⟨responseHeader opcode (UInt32.ofNat body.length) elapsedUs, body⟩

theorem received_body (opcode : UInt16) (elapsedUs : UInt64) (body : Bytes) :
    (received opcode elapsedUs body).body = body := rfl

/-- The bridge reads as much of a body as the 32 bits of the header announce. -/
theorem verdict_announced (opcode : UInt16) (elapsedUs : UInt64) (body rest : Bytes) :
    verdict (frame opcode elapsedUs body ++ rest) =
      some (.ok ⟨responseHeader opcode (UInt32.ofNat body.length) elapsedUs,
        body.take (body.length % 2 ^ 32)⟩) := by
  apply verdict_append
  have hsize := serializeHeader_length
    (responseHeader opcode (UInt32.ofNat body.length) elapsedUs)
  have hparse := parseHeader_serializeHeader
    (responseHeader opcode (UInt32.ofNat body.length) elapsedUs) [] rfl rfl
  rw [List.append_nil] at hparse
  have hlen : (frame opcode elapsedUs body).length = nervfsHeaderSize + body.length := by
    rw [frame, List.length_append, hsize]
  have htake : (frame opcode elapsedUs body).take nervfsHeaderSize =
      serializeHeader (responseHeader opcode (UInt32.ofNat body.length) elapsedUs) :=
    List.take_left' hsize
  have hdrop : (frame opcode elapsedUs body).drop nervfsHeaderSize = body :=
    List.drop_left' hsize
  have hannounced : (responseHeader opcode (UInt32.ofNat body.length) elapsedUs).payloadLen.toNat =
      body.length % 2 ^ 32 := UInt32.toNat_ofNat'
  have hle := Nat.mod_le body.length (2 ^ 32)
  unfold verdict
  rw [if_neg (by omega), htake, hparse]
  dsimp only
  rw [hannounced, if_neg (by omega), responseOf, hdrop, hannounced]

/-- A frame is a header that announces the body and then the body. -/
theorem verdict_frame (opcode : UInt16) (elapsedUs : UInt64) {body : Bytes} (rest : Bytes)
    (h : body.length < 2 ^ 32) :
    verdict (frame opcode elapsedUs body ++ rest) =
      some (.ok (received opcode elapsedUs body)) := by
  rw [verdict_announced, Nat.mod_eq_of_lt h, List.take_length]
  rfl

theorem readUIntBE_toBytes {width value : ℕ} (before rest : Bytes) (h : value < 256 ^ width) :
    readUIntBE width (before ++ (toBytes width value ++ rest)) before.length = some value := by
  rw [readUIntBE_append before _ rest (toBytes_length ..), ofBytes_toBytes_of_lt h]

def errorBody (errCode : UInt16) (msg : Bytes) : Bytes :=
  writeU16 errCode ++ (writeU16 (UInt16.ofNat msg.length) ++ msg)

/-- What a call is rejected with after an error response. -/
def rejection (errCode : UInt16) (msg : Bytes) : Failure :=
  .error (if Utf8.decode msg = [] then requestFailed else Utf8.decode msg) (some errCode.toNat)

theorem throwIfError_error {header : Header} (errCode : UInt16) {msg : Bytes}
    (hop : header.opcode = opRespErr) (h : msg.length < 65536) :
    throwIfError header (errorBody errCode msg) = .error (rejection errCode msg) := by
  have hcode : errCode.toNat < 256 ^ 2 := errCode.toNat_lt
  have hnat : (UInt16.ofNat msg.length).toNat = msg.length := UInt16.toNat_ofNat_of_lt' h
  have hbody : errorBody errCode msg =
      toBytes 2 errCode.toNat ++ (toBytes 2 msg.length ++ msg) := by
    simp only [errorBody, writeU16, hnat]
  have hlen : (errorBody errCode msg).length = 4 + msg.length := by
    rw [hbody]
    simp only [List.length_append, toBytes_length]
    omega
  have hread0 : readUIntBE 2 (errorBody errCode msg) 0 = some errCode.toNat := by
    rw [hbody]
    exact readUIntBE_toBytes [] _ hcode
  have hread2 : readUIntBE 2 (errorBody errCode msg) 2 = some msg.length := by
    have hr := readUIntBE_toBytes (toBytes 2 errCode.toNat) msg (show msg.length < 256 ^ 2 from h)
    rw [toBytes_length] at hr
    rw [hbody]
    exact hr
  have hsub : subarray (errorBody errCode msg) 4 (4 + msg.length) = msg := by
    have hs := subarray_append (toBytes 2 errCode.toNat ++ toBytes 2 msg.length) msg []
    simp only [List.length_append, toBytes_length, List.append_nil, List.append_assoc] at hs
    rw [hbody]
    exact hs
  have hge2 : 2 ≤ (errorBody errCode msg).length := by omega
  have hge4 : 4 ≤ (errorBody errCode msg).length := by omega
  unfold throwIfError
  rw [hop, if_neg (by decide)]
  simp only [if_pos hge2, if_pos hge4, hread0, hread2, inRange, bind, Except.bind, hsub]
  rfl

section Checks
variable {opcode : UInt16} {elapsedUs : UInt64} {body : Bytes}

theorem throwIfError_received (h : opcode ≠ opRespErr) :
    throwIfError (received opcode elapsedUs body).header body = .ok () := if_pos h

theorem expectOpcode_received :
    expectOpcode (received opcode elapsedUs body).header opcode = .ok () :=
  if_neg (not_not.mpr rfl)

/-- A response with the expected opcode passes the checks of a call. -/
theorem checks_received {α : Type} (h : opcode ≠ opRespErr) (rest : Js α) :
    (throwIfError (received opcode elapsedUs body).header body >>= fun _ =>
      expectOpcode (received opcode elapsedUs body).header opcode >>= fun _ => rest) = rest := by
  rw [throwIfError_received h, expectOpcode_received]
  rfl

end Checks

theorem uploadResult_metrics (elapsedUs networkUs writeUs syncUs : UInt64) :
    uploadResult (received opRespOk elapsedUs (metricsBody networkUs writeUs syncUs)) =
      .ok ⟨elapsedUs, some ⟨networkUs.toNat, writeUs.toNat, syncUs.toNat⟩⟩ := by
  have h0 : networkUs.toNat < 256 ^ 8 := networkUs.toNat_lt
  have h8 : writeUs.toNat < 256 ^ 8 := writeUs.toNat_lt
  have h16 : syncUs.toNat < 256 ^ 8 := syncUs.toNat_lt
  have hread0 : readUIntBE 8 (metricsBody networkUs writeUs syncUs) 0 = some networkUs.toNat :=
    readUIntBE_toBytes [] _ h0
  have hread8 : readUIntBE 8 (metricsBody networkUs writeUs syncUs) 8 = some writeUs.toNat := by
    have hr := readUIntBE_toBytes (toBytes 8 networkUs.toNat) (toBytes 8 syncUs.toNat) h8
    rwa [toBytes_length] at hr
  have hread16 : readUIntBE 8 (metricsBody networkUs writeUs syncUs) 16 = some syncUs.toNat := by
    have hr := readUIntBE_toBytes (toBytes 8 networkUs.toNat ++ toBytes 8 writeUs.toNat) [] h16
    simp only [List.length_append, toBytes_length, List.append_nil, List.append_assoc] at hr
    exact hr
  have hlen : 24 ≤ (metricsBody networkUs writeUs syncUs).length :=
    le_of_eq (metricsBody_length ..).symm
  unfold uploadResult
  refine (checks_received (show opRespOk ≠ opRespErr by decide) _).trans ?_
  rw [received_body, if_pos hlen, hread0, hread8, hread16]
  rfl

theorem uploadResult_empty (elapsedUs : UInt64) :
    uploadResult (received opRespOk elapsedUs []) = .ok ⟨elapsedUs, none⟩ := rfl

theorem okResult_ok (elapsedUs : UInt64) (body : Bytes) :
    okResult (received opRespOk elapsedUs body) = .ok elapsedUs := rfl

def fileInfo (e : Dirent) : FileInfo := ⟨Utf8.decode e.name, e.size.toNat, e.mode.toNat⟩

/-- The longest name that a length field of two bytes can declare. -/
def declarable : ℕ := 65535

theorem declarable_lt : declarable < 65536 := by decide

section Round
variable {body : Bytes} {offset : ℕ}

theorem readUIntBE_drop (width k : ℕ) (h : offset ≤ body.length) :
    readUIntBE width body (offset + k) = readUIntBE width (body.drop offset) k := by
  unfold readUIntBE
  rw [List.length_drop, List.drop_drop]
  by_cases hin : offset + k + width ≤ body.length
  · rw [if_pos hin, if_pos (by omega)]
  · rw [if_neg hin, if_neg (by omega)]

theorem subarray_drop (k n : ℕ) :
    subarray body (offset + k) (offset + k + n) = ((body.drop offset).drop k).take n := by
  have hsub : offset + k + n - (offset + k) = n := by omega
  unfold subarray
  rw [List.drop_take, hsub, List.drop_drop]

theorem readUIntBE_of_lt {width off : ℕ} {buf : Bytes} (h : buf.length < off + width) :
    readUIntBE width buf off = none := if_neg (by omega)

theorem fileInfo_front {bytes : Bytes} (h : 14 + nameLenOf bytes ≤ bytes.length) :
    fileInfo (frontDirent bytes) =
      ⟨Utf8.decode ((bytes.drop 2).take (nameLenOf bytes)),
        ofBytes ((bytes.drop (2 + nameLenOf bytes)).take 8),
        ofBytes ((bytes.drop (2 + nameLenOf bytes + 8)).take 4)⟩ := by
  have h8 : ((bytes.drop (2 + nameLenOf bytes)).take 8).length = 8 := slice_length (by omega)
  have h4 : ((bytes.drop (2 + nameLenOf bytes + 8)).take 4).length = 4 := slice_length (by omega)
  have hsize := ofBytes_lt_of_length h8
  have hmode := ofBytes_lt_of_length h4
  unfold fileInfo frontDirent
  dsimp only
  rw [UInt64.toNat_ofNat', UInt32.toNat_ofNat', Nat.mod_eq_of_lt (by omega),
    Nat.mod_eq_of_lt (by omega)]

/-- One round takes the entry at the offset, or throws when there is none. -/
theorem listEntries_round (count : ℕ) (h : offset ≤ body.length) :
    listEntries body (count + 1) offset =
      match takeDirent declarable (body.drop offset) with
      | none => .error .rangeError
      | some p => (listEntries body count (body.length - p.2.length)).map (fileInfo p.1 :: ·) := by
  generalize hbytes : body.drop offset = bytes
  have hlen : bytes.length = body.length - offset := by
    rw [← hbytes, List.length_drop]
  have hname : nameLenOf bytes ≤ declarable := Nat.le_of_lt_succ (nameLenOf_lt bytes)
  have hread (width k : ℕ) : readUIntBE width body (offset + k) = readUIntBE width bytes k := by
    rw [readUIntBE_drop width k h, hbytes]
  have hsub (k n : ℕ) : subarray body (offset + k) (offset + k + n) = (bytes.drop k).take n := by
    rw [subarray_drop, hbytes]
  have hread0 := hread 2 0
  have hread8 := hread 8 (2 + nameLenOf bytes)
  have hread4 := hread 4 (2 + nameLenOf bytes + 8)
  rw [Nat.add_zero] at hread0
  simp only [← Nat.add_assoc] at hread8 hread4
  rw [listEntries]
  dsimp only
  rw [hread0]
  by_cases h2 : 2 ≤ bytes.length
  · have hvalue : readUIntBE 2 bytes 0 = some (nameLenOf bytes) := readUIntBE_of_le (by omega)
    simp only [hvalue, inRange, bind, Except.bind]
    rw [hsub, hread8]
    by_cases h10 : 2 + nameLenOf bytes + 8 ≤ bytes.length
    · simp only [readUIntBE_of_le h10]
      rw [hread4]
      by_cases h14 : 2 + nameLenOf bytes + 8 + 4 ≤ bytes.length
      · have hend : body.length - (bytes.drop (14 + nameLenOf bytes)).length =
            offset + 2 + nameLenOf bytes + 8 + 4 := by
          rw [List.length_drop]
          omega
        simp only [readUIntBE_of_le h14]
        rw [takeDirent, if_pos ⟨by omega, hname⟩]
        dsimp only
        rw [hend, fileInfo_front (by omega)]
        cases listEntries body count (offset + 2 + nameLenOf bytes + 8 + 4) with
        | error e => rfl
        | ok files => rfl
      · rw [readUIntBE_of_lt (by omega), takeDirent, if_neg (by omega)]
    · rw [readUIntBE_of_lt (by omega), takeDirent, if_neg (by omega)]
  · rw [readUIntBE_of_lt (by omega), takeDirent, if_neg (by omega)]
    rfl

end Round

theorem listEntries_takeMany (count : ℕ) {body : Bytes} {offset : ℕ} (h : offset ≤ body.length) :
    listEntries body count offset =
      match (direntCode declarable declarable_lt).takeMany count (body.drop offset) with
      | none => .error .rangeError
      | some p => .ok (p.1.map fileInfo) := by
  induction count generalizing offset with
  | zero => rfl
  | succ count ih =>
    rw [listEntries_round count h, PrefixCode.takeMany]
    have hcode : (direntCode declarable declarable_lt).take = takeDirent declarable := rfl
    rw [hcode]
    cases htake : takeDirent declarable (body.drop offset) with
    | none => rfl
    | some p =>
      obtain ⟨-, hsplit⟩ := (takeDirent_iff declarable_lt _ p.1 p.2).mp htake
      have hbefore := List.take_append_drop offset body
      -- the rest is what stands behind the bytes that were read
      have hrest : body.drop (body.length - p.2.length) = p.2 := by
        rw [← hbefore, hsplit, ← List.append_assoc, List.length_append, Nat.add_sub_cancel,
          List.drop_left' rfl]
      dsimp only
      rw [ih (Nat.sub_le ..), hrest]
      cases (direntCode declarable declarable_lt).takeMany count p.2 with
      | none => rfl
      | some q => rfl

theorem listResult_takeMany {resp : Response} (hop : resp.header.opcode = opRespListData) :
    listResult resp =
      if 4 ≤ resp.body.length then
        match (direntCode declarable declarable_lt).takeMany (countOf resp.body)
          (resp.body.drop 4) with
        | none => .error .rangeError
        | some p => .ok ⟨p.1.map fileInfo, resp.header.reserved⟩
      else .error .rangeError := by
  have herr : throwIfError resp.header resp.body = .ok () := by
    unfold throwIfError
    rw [hop, if_pos (by decide)]
    rfl
  have hexpect : expectOpcode resp.header opRespListData = .ok () := if_neg (not_not.mpr hop)
  unfold listResult
  rw [herr, hexpect]
  by_cases h4 : 4 ≤ resp.body.length
  · have hcount : readUIntBE 4 resp.body 0 = some (countOf resp.body) :=
      readUIntBE_of_le (by omega)
    rw [if_pos h4, hcount]
    simp only [inRange, bind, Except.bind]
    rw [listEntries_takeMany _ h4]
    cases (direntCode declarable declarable_lt).takeMany (countOf resp.body)
        (resp.body.drop 4) with
    | none => rfl
    | some p => rfl
  · rw [if_neg h4, readUIntBE_of_lt (by omega)]
    rfl

theorem listResult_ok_iff {resp : Response} (hop : resp.header.opcode = opRespListData)
    (listing : Listing) :
    listResult resp = .ok listing ↔
      ∃ entries, Lists declarable resp.body entries ∧
        listing = ⟨entries.map fileInfo, resp.header.reserved⟩ := by
  rw [listResult_takeMany hop]
  constructor
  · intro h
    by_cases h4 : 4 ≤ resp.body.length
    · rw [if_pos h4] at h
      cases htake : (direntCode declarable declarable_lt).takeMany (countOf resp.body)
          (resp.body.drop 4) with
      | none =>
        rw [htake] at h
        cases h
      | some p =>
        rw [htake] at h
        cases h
        exact ⟨p.1, (takeMany_some_iff declarable_lt h4 p.1).mp ⟨p.2, htake⟩, rfl⟩
    · rw [if_neg h4] at h
      cases h
  · intro h
    obtain ⟨entries, hlists, hlisting⟩ := h
    have h4 := hlists.four_le
    obtain ⟨rest, htake⟩ := (takeMany_some_iff declarable_lt h4 entries).mpr hlists
    rw [if_pos h4, htake, hlisting]

theorem listResult_listing (elapsedUs : UInt64) {entries : List Dirent}
    (h : Encodable entries) :
    listResult (received opRespListData elapsedUs (listBody entries)) =
      .ok ⟨entries.map fileInfo, elapsedUs⟩ := by
  have hlists := lists_listBody h
  apply (listResult_ok_iff rfl _).mpr
  refine ⟨entries, ⟨hlists.count, ?_, hlists.front⟩, rfl⟩
  intro e he
  have hname : e.name.length ≤ 255 := hlists.names e he
  unfold declarable
  omega

def fileBody (content : Bytes) : Bytes := writeU64 (UInt64.ofNat content.length) ++ content

theorem downloadResult_file (elapsedUs : UInt64) {content : Bytes}
    (h : content.length < 2 ^ 32 - 8) :
    downloadResult (received opRespFileData elapsedUs (fileBody content)) =
      .ok ⟨content, elapsedUs⟩ := by
  have hnat : (UInt64.ofNat content.length).toNat = content.length :=
    UInt64.toNat_ofNat_of_lt' (show content.length < 2 ^ 64 by omega)
  have hbody : fileBody content = toBytes 8 content.length ++ content := by
    rw [fileBody, writeU64, hnat]
  have hread : readUIntBE 8 (fileBody content) 0 = some content.length := by
    rw [hbody]
    exact readUIntBE_toBytes [] _ (by omega)
  have hsub : subarray (fileBody content) 8 (8 + content.length) = content := by
    have hs := subarray_append (toBytes 8 content.length) content []
    rw [toBytes_length, List.append_nil] at hs
    rw [hbody]
    exact hs
  have hnumber : toNumber (8 + toNumber content.length) = 8 + content.length := by
    rw [toNumber_of_lt (show content.length < 2 ^ 53 by omega), toNumber_of_lt (by omega)]
  unfold downloadResult
  refine (checks_received (show opRespFileData ≠ opRespErr by decide) _).trans ?_
  rw [received_body, hread]
  simp only [inRange, bind, Except.bind, hnumber, hsub]
  rfl

section Calls
variable (events : List Event)

theorem request_settled {α : Type} {opcode : UInt16} {payload : Bytes} (result : Response → Js α)
    (h : payload.length < 2 ^ 32) :
    (request events opcode payload >>= fun resp => Call.ofJs (result resp)).settled =
      (readResponse events).map fun resp => resp >>= result := by
  rw [request_eq, if_pos h]
  change (Call.bind _ fun resp => Call.ofJs (result resp)).settled = _
  unfold Call.bind
  cases readResponse events with
  | none => rfl
  | some settled =>
    cases settled with
    | error e => rfl
    | ok resp => rfl

theorem listFiles_settled :
    (listFiles events).settled = (readResponse events).map fun resp => resp >>= listResult :=
  request_settled events listResult (by decide)

theorem uploadFile_settled {filename : List Char} {fileBuffer : Bytes}
    (h : ¬ TooLong (.upload (Utf8.encode filename) fileBuffer)) :
    (uploadFile events filename fileBuffer).settled =
      (readResponse events).map fun resp => resp >>= uploadResult := by
  obtain ⟨hname, hbody, -⟩ := carries_payloadOf h
  have hlen := (not_or.mp h).2
  unfold uploadFile
  rw [uploadBuffer_eq, if_pos ⟨hname, hbody⟩, bind_ok_ofJs]
  apply request_settled
  simp only [payloadOf] at hlen
  omega

theorem filename_settled {α : Type} {opcode : UInt16} {filename : List Char}
    (result : Response → Js α) (h : (Utf8.encode filename).length < 65536) :
    (Call.ofJs (filenamePayload filename 0) >>= fun p =>
      request events opcode p.1 >>= fun resp => Call.ofJs (result resp)).settled =
        (readResponse events).map fun resp => resp >>= result := by
  rw [filenamePayload_eq, if_pos h, bind_ok_ofJs]
  apply request_settled
  simp only [List.length_append, toBytes_length, alloc_length]
  omega

theorem downloadFile_settled {filename : List Char} (h : (Utf8.encode filename).length < 65536) :
    (downloadFile events filename).settled =
      (readResponse events).map fun resp => resp >>= downloadResult :=
  filename_settled events downloadResult h

theorem deleteFile_settled {filename : List Char} (h : (Utf8.encode filename).length < 65536) :
    (deleteFile events filename).settled =
      (readResponse events).map fun resp => resp >>= okResult :=
  filename_settled events okResult h

theorem chmodFile_settled {filename : List Char} {mode : UInt32}
    (h : (Utf8.encode filename).length < 65536) :
    (chmodFile events filename mode.toNat).settled =
      (readResponse events).map fun resp => resp >>= okResult := by
  unfold chmodFile
  rw [chmodBuffer_eq, if_pos h, bind_ok_ofJs]
  apply request_settled
  simp only [chmodPayload, List.length_append, toBytes_length]
  omega

end Calls

/-- Reads throw outside the body and slices clamp, but behind every name there is a read that
throws unless the whole name was there. -/
theorem listResult_error {resp : Response} (hop : resp.header.opcode = opRespListData)
    (h : ¬ ∃ entries, Lists declarable resp.body entries) :
    listResult resp = .error .rangeError := by
  rw [listResult_takeMany hop]
  by_cases h4 : 4 ≤ resp.body.length
  · rw [if_pos h4, (takeMany_none_iff declarable_lt h4).mpr h]
  · rw [if_neg h4]

/-- A listing is returned exactly when the body starts with the entries it announces, and
then these are returned with their whole names; every other body is thrown out. -/
theorem listFiles_exact (resp : Response) (hop : resp.header.opcode = opRespListData) :
    (∀ listing, listResult resp = .ok listing ↔
      ∃ entries, Lists declarable resp.body entries ∧
        listing = ⟨entries.map fileInfo, resp.header.reserved⟩) ∧
    ((¬ ∃ entries, Lists declarable resp.body entries) →
      listResult resp = .error .rangeError) ∧
    ∀ events, readResponse events = some (.ok resp) →
      (listFiles events).settled = some (listResult resp) := by
  refine ⟨listResult_ok_iff hop, listResult_error hop, ?_⟩
  intro events hread
  rw [listFiles_settled, hread]
  rfl

theorem listFiles_exact_sample :
    listResult ⟨responseHeader opRespListData 20 7, listBody [⟨[0x61, 0x62], 5, 0o644⟩] ++ [1]⟩ =
      .ok ⟨[⟨['a', 'b'], 5, 0o644⟩], 7⟩ := by
  apply ((listFiles_exact _ rfl).1 _).mpr
  refine ⟨[⟨[0x61, 0x62], 5, 0o644⟩], ⟨by decide, ?_, [1], rfl⟩, by decide⟩
  intro e he
  rw [List.mem_singleton.mp he]
  decide

end NervFS.BridgeReplies
