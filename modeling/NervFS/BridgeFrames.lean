import NervFS.Bridge
import NervFS.Operations

/-!
The requests of the bridge. A call throws before it writes when a length does not fit its
field on the wire; otherwise the server reads exactly one request out of what the call
has written, and it is for the same operation with the same fields.
-/
namespace NervFS.BridgeFrames

open Programs BigEndian Calls Protocol FileOps Handlers Requests Operations NodeBuffer Bridge

theorem buildHeader_eq (opcode : UInt16) (payloadLen : ℕ) :
    buildHeader opcode payloadLen =
      if payloadLen < 2 ^ 32 then
        .ok (serializeHeader (requestHeader opcode (UInt32.ofNat payloadLen)))
      else .error .rangeError := by
  have hop : opcode.toNat < 256 ^ 2 := opcode.toNat_lt
  have h2 := writeUIntBE_append [nervfsMagic, nervfsVersion] (alloc 2) (alloc 12)
    (alloc_length 2) hop
  have hmagic : writeUIntBE 1 (alloc nervfsHeaderSize) nervfsMagic.toNat 0 =
      some (nervfsMagic :: alloc 15) := rfl
  have hversion : writeUIntBE 1 (nervfsMagic :: alloc 15) nervfsVersion.toNat 1 =
      some ([nervfsMagic, nervfsVersion] ++ (alloc 2 ++ alloc 12)) := rfl
  have hsplit : [nervfsMagic, nervfsVersion] ++ (toBytes 2 opcode.toNat ++ alloc 12) =
      ([nervfsMagic, nervfsVersion] ++ toBytes 2 opcode.toNat) ++ (alloc 4 ++ alloc 8) := by
    rw [List.append_assoc]
    rfl
  have hfour : ([nervfsMagic, nervfsVersion] ++ toBytes 2 opcode.toNat).length = 4 := by
    simp
  have hzero : toBytes 8 0 = alloc 8 := by decide
  unfold buildHeader
  simp only [hmagic, hversion, inRange, bind, Except.bind]
  have h2' : writeUIntBE 2 ([nervfsMagic, nervfsVersion] ++ (alloc 2 ++ alloc 12)) opcode.toNat 2 =
      some ([nervfsMagic, nervfsVersion] ++ (toBytes 2 opcode.toNat ++ alloc 12)) := h2
  rw [h2', hsplit]
  by_cases h : payloadLen < 2 ^ 32
  · have h4 := writeUIntBE_append ([nervfsMagic, nervfsVersion] ++ toBytes 2 opcode.toNat)
      (alloc 4) (alloc 8) (alloc_length 4) (show payloadLen < 256 ^ 4 by omega)
    rw [hfour] at h4
    rw [if_pos h]
    simp only [h4, serializeHeader, requestHeader, UInt32.toNat_ofNat',
      Nat.mod_eq_of_lt (show payloadLen < 2 ^ 32 from h), UInt64.reduceToNat, hzero]
    simp
  · have h4 : ∀ buf, writeUIntBE 4 buf payloadLen 4 = none := fun buf =>
      writeUIntBE_range buf 4 (by omega)
    rw [if_neg h]
    simp only [h4]

theorem filenamePayload_eq (filename : List Char) (extraBytes : ℕ) :
    filenamePayload filename extraBytes =
      if (Utf8.encode filename).length < 65536 then
        .ok (toBytes 2 (Utf8.encode filename).length ++
          (Utf8.encode filename ++ alloc extraBytes), 2 + (Utf8.encode filename).length)
      else .error .rangeError := by
  unfold filenamePayload
  generalize Utf8.encode filename = name
  by_cases h : name.length < 65536
  · have hwrite : writeUIntBE 2 (alloc (2 + name.length + extraBytes)) name.length 0 =
        some (toBytes 2 name.length ++ (alloc name.length ++ alloc extraBytes)) := by
      rw [alloc_add, alloc_add, List.append_assoc]
      exact writeUIntBE_append [] (alloc 2) _ (alloc_length 2) h
    have hcopy : copy name (toBytes 2 name.length ++ (alloc name.length ++ alloc extraBytes)) 2 =
        toBytes 2 name.length ++ (name ++ alloc extraBytes) := by
      have hc := copy_append (toBytes 2 name.length) (alloc name.length) (alloc extraBytes) name
        (alloc_length _)
      rwa [toBytes_length] at hc
    rw [if_pos h]
    simp only [hwrite, inRange, bind, Except.bind, hcopy]
    rfl
  · rw [if_neg h]
    simp only [writeUIntBE_range _ _ (show ¬ name.length < 256 ^ 2 from h), inRange, bind,
      Except.bind]

theorem uploadBuffer_eq (filename : List Char) (fileBuffer : Bytes) :
    uploadBuffer filename fileBuffer =
      if (Utf8.encode filename).length < 65536 ∧ fileBuffer.length < 2 ^ 64 then
        .ok (uploadPayload (Utf8.encode filename) fileBuffer)
      else .error .rangeError := by
  unfold uploadBuffer
  generalize Utf8.encode filename = name
  by_cases h : name.length < 65536
  · have hwrite : writeUIntBE 2 (alloc (2 + name.length + 8)) name.length 0 =
        some (toBytes 2 name.length ++ (alloc name.length ++ alloc 8)) := by
      rw [alloc_add, alloc_add, List.append_assoc]
      exact writeUIntBE_append [] (alloc 2) _ (alloc_length 2) h
    have hcopy : copy name (toBytes 2 name.length ++ (alloc name.length ++ alloc 8)) 2 =
        toBytes 2 name.length ++ (name ++ alloc 8) := by
      have hc := copy_append (toBytes 2 name.length) (alloc name.length) (alloc 8) name
        (alloc_length _)
      rwa [toBytes_length] at hc
    simp only [hwrite, inRange, bind, Except.bind, hcopy]
    by_cases hsize : fileBuffer.length < 2 ^ 64
    · have hend : writeUIntBE 8 (toBytes 2 name.length ++ (name ++ alloc 8)) fileBuffer.length
          (2 + name.length) =
          some (toBytes 2 name.length ++ (name ++ toBytes 8 fileBuffer.length)) := by
        have hw := writeUIntBE_append (toBytes 2 name.length ++ name) (alloc 8) []
          (alloc_length 8) (show fileBuffer.length < 256 ^ 8 from hsize)
        simpa using hw
      rw [if_pos ⟨h, hsize⟩]
      simp only [hend, uploadPayload, List.append_assoc]
      rfl
    · rw [if_neg fun hc => hsize hc.2]
      simp only [writeUIntBE_range _ _ (show ¬ fileBuffer.length < 256 ^ 8 from hsize)]
  · rw [if_neg fun hc => h hc.1]
    simp only [writeUIntBE_range _ _ (show ¬ name.length < 256 ^ 2 from h), inRange, bind,
      Except.bind]

theorem chmodBuffer_eq (filename : List Char) (mode : UInt32) :
    chmodBuffer filename mode.toNat =
      if (Utf8.encode filename).length < 65536 then
        .ok (chmodPayload (Utf8.encode filename) mode)
      else .error .rangeError := by
  have hmode : mode.toNat < 256 ^ 4 := mode.toNat_lt
  unfold chmodBuffer
  rw [filenamePayload_eq]
  generalize Utf8.encode filename = name
  by_cases h : name.length < 65536
  · have hwrite : writeUIntBE 4 (toBytes 2 name.length ++ (name ++ alloc 4)) mode.toNat
        (2 + name.length) = some (toBytes 2 name.length ++ (name ++ toBytes 4 mode.toNat)) := by
      have hw := writeUIntBE_append (toBytes 2 name.length ++ name) (alloc 4) [] (alloc_length 4)
        hmode
      simpa using hw
    rw [if_pos h, if_pos h]
    simp only [bind, Except.bind, hwrite, inRange, chmodPayload]
  · rw [if_neg h, if_neg h]
    rfl

section Calls
variable {α β : Type}

@[simp] theorem bind_ok_ofJs (a : α) (f : α → Call β) : (Call.ofJs (.ok a) >>= f) = f a := rfl

@[simp] theorem bind_error_ofJs (e : Failure) (f : α → Call β) :
    (Call.ofJs (.error e) >>= f) = ⟨[], some (.error e)⟩ := rfl

@[simp] theorem bind_ofJs_written (c : Call α) (f : α → Js β) :
    (c >>= fun a => Call.ofJs (f a)).written = c.written := by
  show (Call.bind c fun a => Call.ofJs (f a)).written = c.written
  unfold Call.bind
  split
  · simp [Call.ofJs]
  · rfl
  · rfl

end Calls

theorem request_eq (events : List Event) (opcode : UInt16) (payload : Bytes) :
    request events opcode payload =
      if payload.length < 2 ^ 32 then
        { written := serializeHeader (requestHeader opcode (UInt32.ofNat payload.length)) ++ payload
          settled := readResponse events }
      else ⟨[], some (.error .rangeError)⟩ := by
  unfold request
  rw [buildHeader_eq]
  split
  · rfl
  · rfl

/-- The call throws before it writes exactly when the operation is too long, and else it
writes a frame that the server takes for the operation. -/
structure Sends {α : Type} (c : Call α) (op : Operation) : Prop where
  throws_iff : (c.written = [] ∧ ∃ e, c.settled = some (.error e)) ↔ TooLong op
  frame : ¬ TooLong op → ServedAs c.written op

section Sends
variable {α : Type} (op : Operation) (events : List Event)

/-- A call that has built its payload sends it or throws for its length. -/
theorem sends_request (result : Response → Js α) (hname : (nameOf op).length < 65536) :
    Sends (request events op.opcode (payloadOf op) >>= fun resp => .ofJs (result resp)) op := by
  have htoo : TooLong op ↔ ¬ (payloadOf op).length < 2 ^ 32 := by
    unfold TooLong
    omega
  rw [request_eq]
  by_cases hlen : (payloadOf op).length < 2 ^ 32
  · rw [if_pos hlen]
    constructor
    · rw [bind_ofJs_written]
      have hsize := serializeHeader_length
        (requestHeader op.opcode (UInt32.ofNat (payloadOf op).length))
      constructor
      · intro h
        rw [(List.append_eq_nil_iff.mp h.1).1] at hsize
        cases hsize
      · intro h
        exact absurd hlen (htoo.mp h)
    · intro h
      rw [bind_ofJs_written]
      exact servedAs_of_carries hlen (carries_payloadOf h)
  · rw [if_neg hlen]
    exact ⟨⟨fun _ => htoo.mpr hlen, fun _ => ⟨rfl, _, rfl⟩⟩, fun h => absurd (htoo.mpr hlen) h⟩

theorem sends_throw (e : Failure) (h : TooLong op) :
    Sends (⟨[], some (.error e)⟩ : Call α) op :=
  ⟨⟨fun _ => h, fun _ => ⟨rfl, e, rfl⟩⟩, fun hn => absurd h hn⟩

end Sends

section FileCalls
variable (events : List Event) (filename : List Char)

theorem uploadFile_sends (fileBuffer : Bytes) :
    Sends (uploadFile events filename fileBuffer)
      (.upload (Utf8.encode filename) fileBuffer) := by
  unfold uploadFile
  rw [uploadBuffer_eq]
  by_cases h : (Utf8.encode filename).length < 65536 ∧ fileBuffer.length < 2 ^ 64
  · rw [if_pos h, bind_ok_ofJs]
    exact sends_request (.upload (Utf8.encode filename) fileBuffer) events uploadResult h.1
  · rw [if_neg h, bind_error_ofJs]
    apply sends_throw
    have hlen : (uploadPayload (Utf8.encode filename) fileBuffer).length =
        2 + ((Utf8.encode filename).length + (8 + fileBuffer.length)) := by
      simp only [uploadPayload, List.length_append, toBytes_length]
    show 65535 < (Utf8.encode filename).length ∨
      2 ^ 32 - 1 < (uploadPayload (Utf8.encode filename) fileBuffer).length
    omega

theorem filename_sends {α : Type} (op : Operation) (result : Response → Js α)
    (hname : nameOf op = Utf8.encode filename)
    (hpayload : payloadOf op = namePayload (Utf8.encode filename)) :
    Sends (Call.ofJs (filenamePayload filename 0) >>= fun p =>
      request events op.opcode p.1 >>= fun resp => .ofJs (result resp)) op := by
  rw [filenamePayload_eq]
  by_cases h : (Utf8.encode filename).length < 65536
  · have hnil : toBytes 2 (Utf8.encode filename).length ++ (Utf8.encode filename ++ alloc 0) =
        payloadOf op := by
      rw [hpayload, namePayload, alloc, List.replicate_zero, List.append_nil]
    rw [if_pos h, bind_ok_ofJs, hnil]
    exact sends_request op events result (by rw [hname]; exact h)
  · rw [if_neg h, bind_error_ofJs]
    apply sends_throw
    left
    rw [hname]
    omega

theorem chmodFile_sends (mode : UInt32) :
    Sends (chmodFile events filename mode.toNat) (.chmod (Utf8.encode filename) mode) := by
  unfold chmodFile
  rw [chmodBuffer_eq]
  by_cases h : (Utf8.encode filename).length < 65536
  · rw [if_pos h, bind_ok_ofJs]
    exact sends_request (.chmod (Utf8.encode filename) mode) events okResult h
  · rw [if_neg h, bind_error_ofJs]
    apply sends_throw
    left
    show 65535 < (Utf8.encode filename).length
    omega

/-- Whatever the socket does after the connection, the calls of the bridge write nothing or
one frame that the server takes for the operation of the call. -/
theorem bridge_frames (fileBuffer : Bytes) (mode : UInt32) :
    Sends (uploadFile events filename fileBuffer) (.upload (Utf8.encode filename) fileBuffer) ∧
    Sends (downloadFile events filename) (.download (Utf8.encode filename)) ∧
    Sends (deleteFile events filename) (.delete (Utf8.encode filename)) ∧
    Sends (chmodFile events filename mode.toNat) (.chmod (Utf8.encode filename) mode) :=
  ⟨uploadFile_sends events filename fileBuffer,
    filename_sends events filename (.download _) downloadResult rfl rfl,
    filename_sends events filename (.delete _) okResult rfl rfl,
    chmodFile_sends events filename mode⟩

end FileCalls

end NervFS.BridgeFrames
