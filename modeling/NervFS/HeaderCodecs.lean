import NervFS.Lib.ByteOrder
import NervFS.BridgeFrames
import NervFS.BridgeStreams

/-!
The header codecs down to the memory of the host. The server moves a field between the
buffer and a number of its own by copying bytes, and exchanges the bytes of that number,
so what it computes rests on the order in which its host keeps them. In either order the
codecs are the readings of byte strings that the rest of the development takes them for,
inverse to each other, and the same as the bridge's, which names its byte order.
-/
namespace NervFS.HeaderCodecs

open BigEndian ByteOrder Calls Protocol NodeBuffer Requests Operations BridgeReader BridgeStreams

/-- `memcpy` into a buffer. -/
def memcpy (dst : Bytes) (off : ℕ) (src : Bytes) : Bytes := patch dst src off

def htons (order : Order) (n : UInt16) : UInt16 := UInt16.ofNat (exchange order 2 n.toNat)
def htonl (order : Order) (n : UInt32) : UInt32 := UInt32.ofNat (exchange order 4 n.toNat)
def htobe64 (order : Order) (n : UInt64) : UInt64 := UInt64.ofNat (exchange order 8 n.toNat)
def ntohs (order : Order) (n : UInt16) : UInt16 := htons order n
def ntohl (order : Order) (n : UInt32) : UInt32 := htonl order n
def be64toh (order : Order) (n : UInt64) : UInt64 := htobe64 order n

/-- The return value, and the header that is filled in either case. -/
def parseHeader (order : Order) (buf : Bytes) : ℤ × Header :=
  let opcodeNet := UInt16.ofNat (fetch order ((buf.drop 2).take 2))
  let lenNet := UInt32.ofNat (fetch order ((buf.drop 4).take 4))
  let reservedNet := UInt64.ofNat (fetch order ((buf.drop 8).take 8))
  let out : Header :=
    { magic := buf.getD 0 0
      version := buf.getD 1 0
      opcode := ntohs order opcodeNet
      payloadLen := ntohl order lenNet
      reserved := be64toh order reservedNet }
  if out.magic ≠ nervfsMagic then (-1, out)
  else if out.version ≠ nervfsVersion then (-1, out)
  else (0, out)

/-- The buffer after the call. -/
def serializeHeader (order : Order) (h : Header) (buf : Bytes) : Bytes :=
  let buf := (buf.set 0 h.magic).set 1 h.version
  let buf := memcpy buf 2 (store order 2 (htons order h.opcode).toNat)
  let buf := memcpy buf 4 (store order 4 (htonl order h.payloadLen).toNat)
  memcpy buf 8 (store order 8 (htobe64 order h.reserved).toNat)

theorem memcpy_append {a : Bytes} {off : ℕ} (h : a.length = off) (rest src : Bytes) :
    memcpy (a ++ rest) off src = a ++ src ++ rest.drop src.length := by
  unfold memcpy patch
  rw [List.take_left' h, ← h, List.drop_length_add_append, List.append_assoc]

theorem exists_cons_cons {buf : Bytes} {n : ℕ} (h : buf.length = n + 2) :
    ∃ m v rest, buf = m :: v :: rest := by
  cases buf with
  | nil => cases h
  | cons m buf =>
    cases buf with
    | nil => cases h
    | cons v rest => exact ⟨m, v, rest, rfl⟩

theorem store_htons (order : Order) (n : UInt16) :
    store order 2 (htons order n).toNat = toBytes 2 n.toNat := by
  rw [htons, UInt16.toNat_ofNat']
  exact store_exchange_mod order n.toNat_lt

theorem store_htonl (order : Order) (n : UInt32) :
    store order 4 (htonl order n).toNat = toBytes 4 n.toNat := by
  rw [htonl, UInt32.toNat_ofNat']
  exact store_exchange_mod order n.toNat_lt

theorem store_htobe64 (order : Order) (n : UInt64) :
    store order 8 (htobe64 order n).toNat = toBytes 8 n.toNat := by
  rw [htobe64, UInt64.toNat_ofNat']
  exact store_exchange_mod order n.toNat_lt

theorem ntohs_fetch (order : Order) {bytes : Bytes} (h : bytes.length = 2) :
    ntohs order (UInt16.ofNat (fetch order bytes)) = UInt16.ofNat (ofBytes bytes) := by
  rw [ntohs, htons, UInt16.toNat_ofNat']
  exact congrArg UInt16.ofNat (exchange_fetch_mod order h)

theorem ntohl_fetch (order : Order) {bytes : Bytes} (h : bytes.length = 4) :
    ntohl order (UInt32.ofNat (fetch order bytes)) = UInt32.ofNat (ofBytes bytes) := by
  rw [ntohl, htonl, UInt32.toNat_ofNat']
  exact congrArg UInt32.ofNat (exchange_fetch_mod order h)

theorem be64toh_fetch (order : Order) {bytes : Bytes} (h : bytes.length = 8) :
    be64toh order (UInt64.ofNat (fetch order bytes)) = UInt64.ofNat (ofBytes bytes) := by
  rw [be64toh, htobe64, UInt64.toNat_ofNat']
  exact congrArg UInt64.ofNat (exchange_fetch_mod order h)

/-- On either host the server reads a header as the byte string that it is. -/
theorem parseHeader_eq (order : Order) {buf : Bytes} (h16 : nervfsHeaderSize ≤ buf.length) :
    parseHeader order buf = (if Accepted (headerOf buf) then 0 else -1, headerOf buf) := by
  have hlen : 16 ≤ buf.length := h16
  have hop := ntohs_fetch order (slice_length (show 2 + 2 ≤ buf.length by omega))
  have hpayload := ntohl_fetch order (slice_length (show 4 + 4 ≤ buf.length by omega))
  have hreserved := be64toh_fetch order (slice_length (show 8 + 8 ≤ buf.length by omega))
  unfold parseHeader
  dsimp only
  rw [hop, hpayload, hreserved]
  change (if (headerOf buf).magic ≠ nervfsMagic then (-1, headerOf buf)
    else if (headerOf buf).version ≠ nervfsVersion then (-1, headerOf buf)
    else (0, headerOf buf)) = _
  by_cases hmagic : (headerOf buf).magic = nervfsMagic
  · by_cases hversion : (headerOf buf).version = nervfsVersion
    · rw [if_neg (not_not.mpr hmagic), if_neg (not_not.mpr hversion), if_pos ⟨hmagic, hversion⟩]
    · rw [if_neg (not_not.mpr hmagic), if_pos hversion, if_neg fun h => hversion h.2]
  · rw [if_pos hmagic, if_neg fun h => hmagic h.1]

theorem parseHeader_accepts_iff (order : Order) {buf : Bytes}
    (h16 : nervfsHeaderSize ≤ buf.length) :
    (parseHeader order buf).1 = 0 ↔ Accepted (headerOf buf) := by
  rw [parseHeader_eq order h16]
  by_cases h : Accepted (headerOf buf) <;> simp [h]

/-- On either host the server writes the byte string of the header over the buffer. -/
theorem serializeHeader_eq (order : Order) (h : Header) {buf : Bytes}
    (h16 : buf.length = nervfsHeaderSize) :
    serializeHeader order h buf = Protocol.serializeHeader h := by
  have hlen : buf.length = 16 := h16
  obtain ⟨m, v, rest, rfl⟩ := exists_cons_cons hlen
  have hset : ((m :: v :: rest).set 0 h.magic).set 1 h.version = [h.magic, h.version] ++ rest := rfl
  have h2 : [h.magic, h.version].length = 2 := rfl
  have h4 : ([h.magic, h.version] ++ toBytes 2 h.opcode.toNat).length = 4 := by
    simp
  have h8 : ([h.magic, h.version] ++ toBytes 2 h.opcode.toNat ++
      toBytes 4 h.payloadLen.toNat).length = 8 := by
    simp
  have hend : ((rest.drop 2).drop 4).drop 8 = [] := by
    apply List.drop_of_length_le
    rw [List.length_drop, List.length_drop]
    exact Nat.le_of_eq (congrArg (· - 8) hlen)
  unfold serializeHeader
  simp only [store_htons, store_htonl, store_htobe64, hset, memcpy_append h2, memcpy_append h4,
    memcpy_append h8, toBytes_length, hend]
  simp [Protocol.serializeHeader]

/-- A header's worth of bytes is the byte string of the header that they make. -/
theorem serializeHeader_headerOf {buf : Bytes} (h16 : buf.length = nervfsHeaderSize) :
    Protocol.serializeHeader (headerOf buf) = buf := by
  have hlen : buf.length = 16 := h16
  have hop : toBytes 2 (headerOf buf).opcode.toNat = (buf.drop 2).take 2 :=
    toBytes_ofBytes_mod (slice_length (by omega))
  have hpayload : toBytes 4 (headerOf buf).payloadLen.toNat = (buf.drop 4).take 4 :=
    toBytes_ofBytes_mod (slice_length (by omega))
  have hreserved : toBytes 8 (headerOf buf).reserved.toNat = (buf.drop 8).take 8 :=
    toBytes_ofBytes_mod (slice_length (by omega))
  unfold Protocol.serializeHeader
  rw [hop, hpayload, hreserved]
  obtain ⟨m, v, rest, rfl⟩ := exists_cons_cons hlen
  have hend : rest = rest.take 2 ++ ((rest.drop 2).take 4 ++ (rest.drop 6).take 8) := by
    have hlast : (rest.drop 6).take 8 = rest.drop 6 := by
      apply List.take_of_length_le
      rw [List.length_drop]
      have hrest : rest.length = 14 := Nat.succ.inj (Nat.succ.inj hlen)
      omega
    rw [hlast, show rest.drop 6 = (rest.drop 2).drop 4 by rw [List.drop_drop],
      List.take_append_drop, List.take_append_drop]
  exact congrArg (fun bytes => m :: v :: bytes) hend.symm

theorem readUIntBE_append_right {width off : ℕ} {buf : Bytes} (rest : Bytes)
    (h : off + width ≤ buf.length) :
    readUIntBE width (buf ++ rest) off = readUIntBE width buf off := by
  rw [readUIntBE_of_le h, readUIntBE_of_le (by rw [List.length_append]; omega),
    List.drop_append_of_le_length (by omega), List.take_append_of_le_length]
  rw [List.length_drop]
  omega

theorem bridge_parseHeader_append {buf : Bytes} (rest : Bytes)
    (h16 : buf.length = nervfsHeaderSize) :
    Bridge.parseHeader (buf ++ rest) = Bridge.parseHeader buf := by
  have hlen : buf.length = 16 := h16
  unfold Bridge.parseHeader
  rw [if_neg (by rw [List.length_append, h16]; omega), if_neg (by rw [h16]; omega),
    readUIntBE_append_right rest (by omega), readUIntBE_append_right rest (by omega),
    readUIntBE_append_right rest (by omega), readUIntBE_append_right rest (by omega),
    readUIntBE_append_right rest (by omega)]

theorem bridge_parseHeader_eq {buf : Bytes} (rest : Bytes) (h16 : buf.length = nervfsHeaderSize) :
    Bridge.parseHeader (buf ++ rest) =
      if Accepted (headerOf buf) then .ok (headerOf buf) else .error Bridge.headerInvalid := by
  rw [bridge_parseHeader_append rest h16, BridgeReader.parseHeader_eq h16, parseHeader_accepted]
  by_cases h : Accepted (headerOf buf)
  · rw [if_pos h, if_pos h]
  · rw [if_neg h, if_neg h]

theorem accepted_headerOf_iff {buf : Bytes} (h16 : buf.length = nervfsHeaderSize) :
    Accepted (headerOf buf) ↔ buf[0]? = some nervfsMagic ∧ buf[1]? = some nervfsVersion := by
  obtain ⟨m, v, rest, rfl⟩ := exists_cons_cons h16
  simp [Accepted, headerOf]

theorem parseHeader_serializeHeader (order : Order) {h : Header} {buf : Bytes}
    (hmagic : h.magic = nervfsMagic) (hversion : h.version = nervfsVersion)
    (h16 : buf.length = nervfsHeaderSize) :
    parseHeader order (serializeHeader order h buf) = (0, h) := by
  have hread := Protocol.parseHeader_serializeHeader h [] hmagic hversion
  rw [List.append_nil, parseHeader_accepted] at hread
  rw [serializeHeader_eq order h h16,
    parseHeader_eq order (le_of_eq (Protocol.serializeHeader_length h).symm)]
  by_cases hacc : Accepted (headerOf (Protocol.serializeHeader h))
  · rw [if_pos hacc] at hread
    rw [if_pos hacc, Option.some.inj hread]
  · rw [if_neg hacc] at hread
    cases hread

/-- The codecs of the server are inverse to each other and the bridge's are the same. -/
theorem codecs_agree (order : Order) :
    (∀ h buf, h.magic = nervfsMagic → h.version = nervfsVersion →
      buf.length = nervfsHeaderSize →
        parseHeader order (serializeHeader order h buf) = (0, h)) ∧
    (∀ b, b.length = nervfsHeaderSize →
      ((parseHeader order b).1 = 0 ↔ b[0]? = some 0xAE ∧ b[1]? = some 1) ∧
      ∀ buf, buf.length = nervfsHeaderSize → (parseHeader order b).1 = 0 →
        serializeHeader order (parseHeader order b).2 buf = b) ∧
    (∀ opcode (payloadLen : UInt32) buf, buf.length = nervfsHeaderSize →
      Bridge.buildHeader opcode payloadLen.toNat =
        .ok (serializeHeader order
          ⟨nervfsMagic, nervfsVersion, opcode, payloadLen, 0⟩ buf)) ∧
    (∀ b rest h, b.length = nervfsHeaderSize →
      (Bridge.parseHeader (b ++ rest) = .ok h ↔ parseHeader order b = (0, h))) := by
  refine ⟨?_, ?_, ?_, ?_⟩
  · intro h buf hmagic hversion h16
    exact parseHeader_serializeHeader order hmagic hversion h16
  · intro b hb
    refine ⟨?_, ?_⟩
    · rw [parseHeader_accepts_iff order hb.ge]
      exact accepted_headerOf_iff hb
    · intro buf h16 _
      rw [parseHeader_eq order hb.ge, serializeHeader_eq order _ h16]
      exact serializeHeader_headerOf hb
  · intro opcode payloadLen buf h16
    rw [serializeHeader_eq order _ h16, BridgeFrames.buildHeader_eq,
      if_pos payloadLen.toNat_lt, UInt32.ofNat_toNat]
    rfl
  · intro b rest h hb
    rw [bridge_parseHeader_eq rest hb, parseHeader_eq order hb.ge]
    by_cases hacc : Accepted (headerOf b)
    · simp [hacc]
    · simp [hacc]

/-- The header of a file of 513 bytes. -/
def sampleHeader : Header := ⟨nervfsMagic, nervfsVersion, opRespFileData, 521, 0⟩

def sampleBytes : Bytes := [0xAE, 1, 0, 0x82, 0, 0, 2, 9, 0, 0, 0, 0, 0, 0, 0, 0]

theorem codecs_agree_sample :
    parseHeader .little (serializeHeader .little sampleHeader (alloc 16)) = (0, sampleHeader) ∧
    (parseHeader .little sampleBytes).1 = 0 ∧
    serializeHeader .little (parseHeader .little sampleBytes).2 (alloc 16) = sampleBytes ∧
    Bridge.buildHeader opRespFileData (521 : UInt32).toNat =
      .ok (serializeHeader .little sampleHeader (alloc 16)) ∧
    Bridge.parseHeader (sampleBytes ++ [7]) = .ok sampleHeader := by
  have hzero : (parseHeader .little sampleBytes).1 = 0 :=
    ((codecs_agree .little).2.1 sampleBytes rfl).1.mpr ⟨rfl, rfl⟩
  refine ⟨?_, hzero, ?_, ?_, ?_⟩
  · exact (codecs_agree .little).1 sampleHeader (alloc 16) rfl rfl rfl
  · exact ((codecs_agree .little).2.1 sampleBytes rfl).2 (alloc 16) rfl hzero
  · exact (codecs_agree .little).2.2.1 opRespFileData 521 (alloc 16) rfl
  · exact ((codecs_agree .little).2.2.2 sampleBytes [7] sampleHeader rfl).mpr (by decide)

end NervFS.HeaderCodecs
