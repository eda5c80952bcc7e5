import NervFS.Bridge

/-!
The response reader of the bridge. What a stream resolves to depends on its bytes alone:
nothing while the header or the announced body is incomplete, and else the first header's
worth of bytes decides. The reader reaches that verdict however the stream is cut.
-/
namespace NervFS.BridgeReader

open BigEndian Calls Protocol NodeBuffer Bridge

theorem readUIntBE_of_le {width off : ℕ} {buf : Bytes} (h : off + width ≤ buf.length) :
    readUIntBE width buf off = some (ofBytes ((buf.drop off).take width)) := if_pos h

theorem byte_eq (b : UInt8) (bytes : Bytes) : UInt8.ofNat (ofBytes ((b :: bytes).take 1)) = b := by
  simp [ofBytes]

theorem parseHeader_eq {buf : Bytes} (h : buf.length = nervfsHeaderSize) :
    Bridge.parseHeader buf =
      match Protocol.parseHeader buf with
      | some header => .ok header
      | none => .error headerInvalid := by
  have h16 : buf.length = 16 := h
  have hmagic : UInt8.ofNat (ofBytes ((buf.drop 0).take 1)) = buf.getD 0 0 := by
    cases buf with
    | nil => cases h16
    | cons b bytes => exact byte_eq b bytes
  have hversion : UInt8.ofNat (ofBytes ((buf.drop 1).take 1)) = buf.getD 1 0 := by
    cases buf with
    | nil => cases h16
    | cons b bytes =>
      cases bytes with
      | nil => cases h16
      | cons b' bytes => exact byte_eq b' bytes
  unfold Bridge.parseHeader Protocol.parseHeader
  rw [readUIntBE_of_le (by omega), readUIntBE_of_le (by omega), readUIntBE_of_le (by omega),
    readUIntBE_of_le (by omega), readUIntBE_of_le (by omega), if_neg (by omega)]
  simp only [inRange, bind, Except.bind, pure, Except.pure, hmagic, hversion]
  by_cases hm : buf.getD 0 0 ≠ nervfsMagic
  · rw [if_pos (Or.inl hm), if_pos hm]
    rfl
  · rw [if_neg hm]
    by_cases hv : buf.getD 1 0 ≠ nervfsVersion
    · rw [if_pos (Or.inr hv), if_pos hv]
      rfl
    · rw [if_neg hv, if_neg (not_or.mpr ⟨hm, hv⟩)]

/-- The response that a stream with this header holds. -/
def responseOf (header : Header) (stream : Bytes) : Response :=
  ⟨header, (stream.drop nervfsHeaderSize).take header.payloadLen.toNat⟩

/-- What a stream resolves to; `none` when it is too short to tell. -/
def verdict (stream : Bytes) : Option (Js Response) :=
  if stream.length < nervfsHeaderSize then none
  else
    match Protocol.parseHeader (stream.take nervfsHeaderSize) with
    | none => some (.error headerInvalid)
    | some header =>
      if stream.length < nervfsHeaderSize + header.payloadLen.toNat then none
      else some (.ok (responseOf header stream))

theorem verdict_append {stream : Bytes} {settled : Js Response} (rest : Bytes)
    (h : verdict stream = some settled) : verdict (stream ++ rest) = some settled := by
  unfold verdict at h ⊢
  by_cases hshort : stream.length < nervfsHeaderSize
  · rw [if_pos hshort] at h
    cases h
  · have htake : (stream ++ rest).take nervfsHeaderSize = stream.take nervfsHeaderSize :=
      List.take_append_of_le_length (by omega)
    rw [if_neg hshort] at h
    rw [if_neg (by rw [List.length_append]; omega), htake]
    cases hparse : Protocol.parseHeader (stream.take nervfsHeaderSize) with
    | none =>
      rw [hparse] at h
      exact h
    | some header =>
      rw [hparse] at h
      dsimp only at h ⊢
      by_cases hbody : stream.length < nervfsHeaderSize + header.payloadLen.toNat
      · rw [if_pos hbody] at h
        cases h
      · have hsame : responseOf header (stream ++ rest) = responseOf header stream := by
          unfold responseOf
          rw [List.drop_append_of_le_length (by omega), List.take_append_of_le_length]
          rw [List.length_drop]
          omega
        rw [if_neg hbody] at h
        rw [if_neg (by rw [List.length_append]; omega), hsame]
        exact h

/-- The reader that has received a stream without a verdict. -/
def waiting (stream : Bytes) : Reader :=
  if stream.length < nervfsHeaderSize then { chunks := stream }
  else
    match Protocol.parseHeader (stream.take nervfsHeaderSize) with
    | none => { chunks := stream }
    | some header =>
      { chunks := stream
        expected := nervfsHeaderSize + header.payloadLen.toNat
        header := some header }

theorem waiting_chunks (stream : Bytes) : (waiting stream).chunks = stream := by
  unfold waiting
  split
  · rfl
  · split
    · rfl
    · rfl

theorem subarray_body (header : Header) (stream : Bytes) :
    subarray stream nervfsHeaderSize (nervfsHeaderSize + header.payloadLen.toNat) =
      (stream.drop nervfsHeaderSize).take header.payloadLen.toNat := by
  unfold subarray
  rw [List.drop_take]
  congr 1
  omega

/-- The reader before its header comes to the verdict of all that it has. -/
theorem tryResolve_start (stream : Bytes) :
    tryResolve { chunks := stream } =
      match verdict stream with
      | none => .inl (waiting stream)
      | some settled => .inr settled := by
  unfold tryResolve verdict waiting
  by_cases hshort : stream.length < nervfsHeaderSize
  · rw [if_pos hshort, if_pos hshort, if_pos hshort]
  · have hsub : subarray stream 0 nervfsHeaderSize = stream.take nervfsHeaderSize := rfl
    have hlen : (stream.take nervfsHeaderSize).length = nervfsHeaderSize := by
      rw [List.length_take]
      omega
    rw [if_neg hshort, if_neg hshort, if_neg hshort, hsub]
    dsimp only
    rw [parseHeader_eq hlen]
    cases hparse : Protocol.parseHeader (stream.take nervfsHeaderSize) with
    | none => rfl
    | some header =>
      dsimp only
      by_cases hbody : stream.length < nervfsHeaderSize + header.payloadLen.toNat
      · rw [if_pos hbody, if_pos hbody]
      · rw [if_neg hbody, if_neg hbody, subarray_body]
        rfl

theorem tryResolve_waiting {stream : Bytes} (chunk : Bytes) (h : verdict stream = none) :
    tryResolve { waiting stream with chunks := stream ++ chunk } =
      match verdict (stream ++ chunk) with
      | none => .inl (waiting (stream ++ chunk))
      | some settled => .inr settled := by
  by_cases hshort : stream.length < nervfsHeaderSize
  · have hwait : { waiting stream with chunks := stream ++ chunk } =
        ({ chunks := stream ++ chunk } : Reader) := by
      unfold waiting
      rw [if_pos hshort]
    rw [hwait]
    exact tryResolve_start _
  · have htake : (stream ++ chunk).take nervfsHeaderSize = stream.take nervfsHeaderSize :=
      List.take_append_of_le_length (by omega)
    have hlong : ¬ (stream ++ chunk).length < nervfsHeaderSize := by
      rw [List.length_append]
      omega
    unfold verdict at h ⊢
    unfold waiting
    rw [if_neg hshort] at h ⊢
    rw [if_neg hlong, if_neg hlong, htake]
    cases hparse : Protocol.parseHeader (stream.take nervfsHeaderSize) with
    | none =>
      rw [hparse] at h
      cases h
    | some header =>
      unfold tryResolve
      dsimp only
      by_cases hbody : (stream ++ chunk).length < nervfsHeaderSize + header.payloadLen.toNat
      · rw [if_pos hbody, if_pos hbody]
      · rw [if_neg hbody, if_neg hbody, subarray_body]
        rfl

theorem readFrom_data (r : Reader) (chunk : Bytes) (events : List Event) :
    readFrom r (.data chunk :: events) =
      match tryResolve { r with chunks := r.chunks ++ chunk } with
      | .inl r => readFrom r events
      | .inr settled => some settled := rfl

theorem readFrom_chunks (chunks : List Bytes) (rest : List Event) {stream : Bytes}
    (h : verdict stream = none) :
    readFrom (waiting stream) (chunks.map Event.data ++ rest) =
      match verdict (stream ++ chunks.flatten) with
      | none => readFrom (waiting (stream ++ chunks.flatten)) rest
      | some settled => some settled := by
  induction chunks generalizing stream with
  | nil =>
    rw [List.flatten_nil, List.append_nil, h]
    rfl
  | cons chunk chunks ih =>
    rw [List.map_cons, List.cons_append, List.flatten_cons, ← List.append_assoc, readFrom_data,
      waiting_chunks, tryResolve_waiting chunk h]
    cases hnext : verdict (stream ++ chunk) with
    | none => exact ih hnext
    | some settled => rw [verdict_append chunks.flatten hnext]

/-- A stream that holds a response resolves to it, however it is cut. -/
theorem readResponse_chunks {chunks : List Bytes} {settled : Js Response} (rest : List Event)
    (h : verdict chunks.flatten = some settled) :
    readResponse (chunks.map Event.data ++ rest) = some settled := by
  have hread := readFrom_chunks chunks rest (show verdict [] = none from rfl)
  rw [List.nil_append, h] at hread
  exact hread

end NervFS.BridgeReader
