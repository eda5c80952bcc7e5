import NervFS.Handlers

/-!
The request payloads and what the handlers make of them. The four parsers of the
source work in mixed widths on attacker-supplied lengths; here each handler that is
called with the true payload length is shown equal to one that first splits the
payload into its fields and then acts. Nothing below this module looks at offsets.
-/
namespace NervFS.Requests

open Programs BigEndian Calls Protocol FileOps Handlers

def uploadPayload (name body : Bytes) : Bytes :=
  toBytes 2 name.length ++ (name ++ (toBytes 8 body.length ++ body))

def namePayload (name : Bytes) : Bytes := toBytes 2 name.length ++ name

def chmodPayload (name : Bytes) (mode : UInt32) : Bytes :=
  toBytes 2 name.length ++ (name ++ toBytes 4 mode.toNat)

/-- The declared length of the name. -/
def nameLenOf (payload : Bytes) : ℕ := ofBytes (payload.take 2)

/-- The name and the body, or the text of the refusal. -/
def uploadFields (payload : Bytes) : Except Bytes (Bytes × Bytes) :=
  if payload.length < 2 then .error msgUploadTooShort
  else if payload.length < 2 + nameLenOf payload + 8 then .error msgUploadTruncated
  else if payload.length - (2 + nameLenOf payload + 8) ≠
      ofBytes ((payload.drop (2 + nameLenOf payload)).take 8) then .error msgSizeMismatch
  else .ok ((payload.drop 2).take (nameLenOf payload),
    payload.drop (2 + nameLenOf payload + 8))

/-- The name of a payload that holds nothing else, or the text of the refusal. -/
def nameField (tooShort malformed payload : Bytes) : Except Bytes Bytes :=
  if payload.length < 2 then .error tooShort
  else if payload.length ≠ 2 + nameLenOf payload then .error malformed
  else .ok ((payload.drop 2).take (nameLenOf payload))

def chmodFields (payload : Bytes) : Except Bytes (Bytes × UInt32) :=
  if payload.length < 2 then .error msgChmodTooShort
  else if payload.length ≠ 2 + nameLenOf payload + 4 then .error msgChmodMalformed
  else .ok ((payload.drop 2).take (nameLenOf payload),
    UInt32.ofNat (ofBytes ((payload.drop (2 + nameLenOf payload)).take 4)))

/-- The refusals of a malformed upload fit the 16 bit length of a message. -/
theorem uploadFields_error_length {payload msg : Bytes} (h : uploadFields payload = .error msg) :
    msg.length < 65536 := by
  unfold uploadFields at h
  split_ifs at h <;> cases h <;> decide

theorem uploadFields_body_length {payload name body : Bytes}
    (h : uploadFields payload = .ok (name, body)) : body.length ≤ payload.length := by
  unfold uploadFields at h
  split_ifs at h
  cases h
  rw [List.length_drop]
  exact Nat.sub_le ..

theorem nameField_error_length {tooShort malformed payload msg : Bytes}
    (hs : tooShort.length < 65536) (hm : malformed.length < 65536)
    (h : ((nameField tooShort malformed payload).map fun name => (name, ())) = .error msg) :
    msg.length < 65536 := by
  unfold nameField at h
  split_ifs at h <;> cases h <;> assumption

theorem chmodFields_error_length {payload msg : Bytes} (h : chmodFields payload = .error msg) :
    msg.length < 65536 := by
  unfold chmodFields at h
  split_ifs at h <;> cases h <;> decide

theorem nameLenOf_lt (payload : Bytes) : nameLenOf payload < 65536 := by
  have h := ofBytes_lt (payload.take 2)
  have hlen : (payload.take 2).length ≤ 2 := List.length_take_le ..
  have hpow : 256 ^ (payload.take 2).length ≤ 256 ^ 2 := Nat.pow_le_pow_right (by omega) hlen
  unfold nameLenOf
  omega

theorem store_of_le {size : UInt32} {out data : Bytes}
    (h : out.length + data.length ≤ size.toNat) : store size out data = .ret (out ++ data) :=
  if_pos h

theorem slice_length {buf : Bytes} {off len : ℕ} (h : off + len ≤ buf.length) :
    ((buf.drop off).take len).length = len := by
  rw [List.length_take, List.length_drop]
  omega

theorem load_of_le {buf : Bytes} {off len : ℕ} (h : off + len ≤ buf.length) :
    load buf off len = .ret ((buf.drop off).take len) := if_pos h

theorem readU16_of_le {buf : Bytes} {off : UInt32} (h : off.toNat + 2 ≤ buf.length) :
    readU16 buf off = .ret (UInt16.ofNat (ofBytes ((buf.drop off.toNat).take 2))) := by
  unfold readU16
  rw [load_of_le h]
  rfl

theorem readU32_of_le {buf : Bytes} {off : UInt32} (h : off.toNat + 4 ≤ buf.length) :
    readU32 buf off = .ret (UInt32.ofNat (ofBytes ((buf.drop off.toNat).take 4))) := by
  unfold readU32
  rw [load_of_le h]
  rfl

theorem readU64_of_le {buf : Bytes} {off : UInt32} (h : off.toNat + 8 ≤ buf.length) :
    readU64 buf off = .ret (UInt64.ofNat (ofBytes ((buf.drop off.toNat).take 8))) := by
  unfold readU64
  rw [load_of_le h]
  rfl

/-- The copy of an accepted name fits and reads back as the name. -/
theorem extractName_of_resolved {root name path : Bytes}
    (h : safeResolvePath root name pathMax = some path) :
    extractName name = .ret name := by
  obtain ⟨hv, -⟩ := validName_of_safeResolvePath h
  unfold extractName
  rw [if_pos hv.short, cString_append_nul hv.no_nul]
  rfl

theorem offset_toNat {n : ℕ} (hn : n < 65536) (k : UInt32) (hk : k.toNat ≤ 8) :
    (2 + (UInt16.ofNat n).toUInt32 + k).toNat = 2 + n + k.toNat := by
  simp only [UInt32.toNat_add, UInt16.toNat_toUInt32, UInt16.toNat_ofNat', UInt32.reduceToNat]
  omega

theorem nameEnd_toNat {n : ℕ} (hn : n < 65536) :
    (2 + (UInt16.ofNat n).toUInt32).toNat = 2 + n := by
  simp only [UInt32.toNat_add, UInt16.toNat_toUInt32, UInt16.toNat_ofNat', UInt32.reduceToNat]
  omega

theorem readNameLen {payload : Bytes} (h : 2 ≤ payload.length) :
    readU16 payload 0 = .ret (UInt16.ofNat (nameLenOf payload)) := by
  rw [readU16_of_le (by simp only [UInt32.reduceToNat]; omega)]
  rfl

theorem nameLen_toNat (payload : Bytes) :
    (UInt16.ofNat (nameLenOf payload)).toNat = nameLenOf payload :=
  UInt16.toNat_ofNat_of_lt' (nameLenOf_lt payload)

theorem declaredSize_lt (payload : Bytes) (off : ℕ) :
    ofBytes ((payload.drop off).take 8) < 2 ^ 64 := by
  have h := ofBytes_lt ((payload.drop off).take 8)
  have hlen : ((payload.drop off).take 8).length ≤ 8 := List.length_take_le ..
  have hpow : 256 ^ ((payload.drop off).take 8).length ≤ 256 ^ 8 :=
    Nat.pow_le_pow_right (by omega) hlen
  omega

/-- What a request that names one file does with its fields. -/
def namedOf {γ : Type} (root : Bytes) (clientFd : ℕ) (fields : Except Bytes (Bytes × γ))
    (act : Bytes → Bytes → γ → Prog Unit) : Prog Unit :=
  match fields with
  | .error msg => sendError clientFd errBadRequest msg
  | .ok (name, rest) =>
    match safeResolvePath root name pathMax with
    | none => sendError clientFd errForbidden msgInvalidFilename
    | some path => act path name rest

def uploadAct (clientFd : ℕ) (networkUs : UInt64) (path name body : Bytes) : Prog Unit := do
  fileopsLockAcquireWrite name
  uploadLocked clientFd path name body (UInt64.ofNat body.length) networkUs

theorem handleUploadTimed_eq (root : Bytes) (clientFd : ℕ) (payload : Bytes)
    (payloadLen : UInt32) (netStart : Timespec) (hlen : payloadLen.toNat = payload.length) :
    handleUploadTimed root clientFd payload payloadLen netStart =
      clockGettime >>= fun netEnd =>
        namedOf root clientFd (uploadFields payload)
          (uploadAct clientFd (elapsedMicroseconds netStart netEnd)) := by
  unfold handleUploadTimed
  congr 1
  funext netEnd
  have hlt := payloadLen.toNat_lt
  have hn := nameLenOf_lt payload
  have h8 := offset_toNat hn 8 (by decide)
  simp only [UInt32.reduceToNat] at h8
  unfold uploadFields
  by_cases h2 : payload.length < 2
  · have hc : payloadLen < 2 := by
      rw [UInt32.lt_iff_toNat_lt, hlen]
      exact h2
    simp only [if_pos hc, if_pos h2]
    exact Program.bind_ret _
  have hc : ¬ payloadLen < 2 := by
    rw [UInt32.lt_iff_toNat_lt, hlen]
    exact h2
  simp only [if_neg hc, if_neg h2, readNameLen (not_lt.mp h2), Program.ret_bind]
  by_cases h10 : payload.length < 2 + nameLenOf payload + 8
  · have hc : payloadLen < 2 + (UInt16.ofNat (nameLenOf payload)).toUInt32 + 8 := by
      rw [UInt32.lt_iff_toNat_lt, h8, hlen]
      exact h10
    simp only [if_pos hc, if_pos h10]
    exact Program.bind_ret _
  have hc : ¬ payloadLen < 2 + (UInt16.ofNat (nameLenOf payload)).toUInt32 + 8 := by
    rw [UInt32.lt_iff_toNat_lt, h8, hlen]
    exact h10
  simp only [if_neg hc, if_neg h10]
  rw [load_of_le (by rw [nameLen_toNat]; simp only [UInt32.reduceToNat]; omega)]
  rw [Program.ret_bind, readU64_of_le (by rw [nameEnd_toNat hn]; omega), Program.ret_bind,
    nameEnd_toNat hn, nameLen_toNat]
  have hd := declaredSize_lt payload (2 + nameLenOf payload)
  have hrest : (payloadLen - (2 + (UInt16.ofNat (nameLenOf payload)).toUInt32 + 8)).toUInt64 =
      UInt64.ofNat (payload.length - (2 + nameLenOf payload + 8)) := by
    apply UInt64.toNat_inj.mp
    rw [UInt32.toNat_toUInt64, UInt32.toNat_sub_of_le _ _ (by rw [UInt32.le_iff_toNat_le]; omega),
      h8, hlen, UInt64.toNat_ofNat']
    omega
  rw [hrest]
  by_cases hsize : payload.length - (2 + nameLenOf payload + 8) =
      ofBytes ((payload.drop (2 + nameLenOf payload)).take 8)
  · have hbody : (payload.drop (2 + nameLenOf payload + 8)).length =
        payload.length - (2 + nameLenOf payload + 8) := List.length_drop
    have hload : load payload (2 + (UInt16.ofNat (nameLenOf payload)).toUInt32 + 8).toNat
        (UInt64.ofNat (payload.length - (2 + nameLenOf payload + 8))).toNat =
        .ret (payload.drop (2 + nameLenOf payload + 8)) := by
      rw [h8, UInt64.toNat_ofNat', Nat.mod_eq_of_lt (by omega), load_of_le (by omega),
        List.take_of_length_le (by omega)]
    simp only [← hsize, ne_eq, not_true_eq_false, if_false, hload, namedOf, uploadAct]
    change _ = match safeResolvePath root ((payload.drop 2).take (nameLenOf payload)) pathMax with
      | none => _
      | some path => _
    cases hres : safeResolvePath root ((payload.drop 2).take (nameLenOf payload)) pathMax with
    | none => simp only [UInt32.reduceToNat, hres]
    | some path =>
      simp only [UInt32.reduceToNat, hres, extractName_of_resolved hres, Program.ret_bind, hbody]
  · have hne : UInt64.ofNat (payload.length - (2 + nameLenOf payload + 8)) ≠
        UInt64.ofNat (ofBytes ((payload.drop (2 + nameLenOf payload)).take 8)) := by
      intro heq
      have hnat := congrArg UInt64.toNat heq
      simp only [UInt64.toNat_ofNat'] at hnat
      omega
    rw [if_pos hne, if_pos hsize]
    exact Program.bind_ret _

def downloadAct (clientFd : ℕ) (path name : Bytes) : Prog Unit := do
  fileopsLockAcquireRead name
  downloadLocked clientFd path name

def deleteAct (clientFd : ℕ) (path name : Bytes) : Prog Unit := do
  fileopsLockAcquireWrite name
  let start ← clockGettime
  let deleteRc ← fileopsDeleteFile path
  let finish ← clockGettime
  fileopsLockReleaseWrite name
  if !deleteRc then
    sendError clientFd errNotFound msgNotFound
    return
  sendOk clientFd (elapsedMicroseconds start finish)

def chmodAct (clientFd : ℕ) (path name : Bytes) (mode : UInt32) : Prog Unit := do
  fileopsLockAcquireWrite name
  let start ← clockGettime
  let chmodRc ← fileopsChmodFile path mode
  let finish ← clockGettime
  fileopsLockReleaseWrite name
  if !chmodRc then
    sendError clientFd errNotFound msgNotFound
    return
  sendOk clientFd (elapsedMicroseconds start finish)

/-- The prefix that the download and the delete handler share. -/
def parseName (root : Bytes) (clientFd : ℕ) (payload : Bytes) (payloadLen : UInt32)
    (tooShort malformed : Bytes) (act : Bytes → Bytes → Prog Unit) : Prog Unit := do
  if payloadLen < 2 then
    sendError clientFd errBadRequest tooShort
    return
  let nameLen ← readU16 payload 0
  if payloadLen ≠ 2 + nameLen.toUInt32 then
    sendError clientFd errBadRequest malformed
    return
  let name ← load payload 2 nameLen.toNat
  let some path := safeResolvePath root name pathMax
    | sendError clientFd errForbidden msgInvalidFilename
  let nameBuf ← extractName name
  act path nameBuf

theorem length_ne_of {payload : Bytes} {payloadLen len : UInt32} {n : ℕ}
    (hlen : payloadLen.toNat = payload.length) (hn : len.toNat = n) :
    payloadLen ≠ len ↔ payload.length ≠ n := by
  rw [← hlen, ← hn]
  exact not_congr UInt32.toNat_inj.symm

theorem parseName_eq (root : Bytes) (clientFd : ℕ) (payload : Bytes) (payloadLen : UInt32)
    (tooShort malformed : Bytes) (act : Bytes → Bytes → Prog Unit)
    (hlen : payloadLen.toNat = payload.length) :
    parseName root clientFd payload payloadLen tooShort malformed act =
      namedOf root clientFd ((nameField tooShort malformed payload).map fun name => (name, ()))
        fun path name _ => act path name := by
  have hn := nameLenOf_lt payload
  have h2 : payloadLen < 2 ↔ payload.length < 2 := by
    rw [UInt32.lt_iff_toNat_lt, hlen]
    exact Iff.rfl
  have hne := length_ne_of hlen (nameEnd_toNat hn)
  unfold parseName nameField
  by_cases hshort : payload.length < 2
  · rw [if_pos (h2.mpr hshort), if_pos hshort]
    exact Program.bind_ret _
  rw [if_neg (mt h2.mp hshort), if_neg hshort, readNameLen (not_lt.mp hshort), Program.ret_bind]
  by_cases hmal : payload.length ≠ 2 + nameLenOf payload
  · rw [if_pos (hne.mpr hmal), if_pos hmal]
    exact Program.bind_ret _
  rw [if_neg (mt hne.mp hmal), if_neg hmal, nameLen_toNat, load_of_le (by omega),
    Program.ret_bind]
  simp only [Except.map, namedOf]
  cases hres : safeResolvePath root ((payload.drop 2).take (nameLenOf payload)) pathMax with
  | none => rfl
  | some path => simp only [extractName_of_resolved hres, Program.ret_bind]

theorem handleDownload_eq (root : Bytes) (clientFd : ℕ) (payload : Bytes)
    (payloadLen : UInt32) (hlen : payloadLen.toNat = payload.length) :
    handleDownload root clientFd payload payloadLen =
      namedOf root clientFd
        ((nameField msgDownloadTooShort msgDownloadMalformed payload).map fun name => (name, ()))
        fun path name _ => downloadAct clientFd path name :=
  parseName_eq root clientFd payload payloadLen _ _ (downloadAct clientFd) hlen

theorem handleDelete_eq (root : Bytes) (clientFd : ℕ) (payload : Bytes)
    (payloadLen : UInt32) (hlen : payloadLen.toNat = payload.length) :
    handleDelete root clientFd payload payloadLen =
      namedOf root clientFd
        ((nameField msgDeleteTooShort msgDeleteMalformed payload).map fun name => (name, ()))
        fun path name _ => deleteAct clientFd path name :=
  parseName_eq root clientFd payload payloadLen _ _ (deleteAct clientFd) hlen

theorem handleChmod_eq (root : Bytes) (clientFd : ℕ) (payload : Bytes)
    (payloadLen : UInt32) (hlen : payloadLen.toNat = payload.length) :
    handleChmod root clientFd payload payloadLen =
      namedOf root clientFd (chmodFields payload) (chmodAct clientFd) := by
  have hn := nameLenOf_lt payload
  have h2 : payloadLen < 2 ↔ payload.length < 2 := by
    rw [UInt32.lt_iff_toNat_lt, hlen]
    exact Iff.rfl
  have hne := length_ne_of hlen (offset_toNat hn 4 (by decide))
  unfold handleChmod chmodFields
  by_cases hshort : payload.length < 2
  · rw [if_pos (h2.mpr hshort), if_pos hshort]
    exact Program.bind_ret _
  rw [if_neg (mt h2.mp hshort), if_neg hshort, readNameLen (not_lt.mp hshort), Program.ret_bind]
  by_cases hmal : payload.length ≠ 2 + nameLenOf payload + 4
  · rw [if_pos (hne.mpr hmal), if_pos hmal]
    exact Program.bind_ret _
  rw [if_neg (mt hne.mp hmal), if_neg hmal, nameLen_toNat, load_of_le (by omega),
    Program.ret_bind]
  simp only [namedOf]
  cases hres : safeResolvePath root ((payload.drop 2).take (nameLenOf payload)) pathMax with
  | none => rfl
  | some path =>
    rw [readU32_of_le (by rw [nameEnd_toNat hn]; omega), nameEnd_toNat hn]
    simp only [extractName_of_resolved hres, Program.ret_bind]
    rfl

end NervFS.Requests
