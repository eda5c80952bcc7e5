import NervFS.CommandLine
import NervFS.Operations

/-!
The requests of the command line client. The length of a name is cut to 16 bits and the
length of an upload to 32 before the payload is built, so a command on a longer name acts
on the start of it, and an upload that is too long writes behind its payload. Below these
bounds a command sends exactly one frame, and it is the frame of its operation.
-/
namespace NervFS.CommandFrames

open Programs BigEndian Calls Protocol FileOps Handlers Requests Operations CommandLine

variable {α : Type} {fd : ℕ} {good : Bytes → Prop} {sent : Bytes}

/-- Having put `sent` on the wire, the program adds only what starts a good frame, reads
only after a whole good frame, and returns only before its first byte or when a write has
failed. Up to its first read it stays inside its buffers. -/
def Writes (fd : ℕ) (good : Bytes → Prop) : (sent : Bytes) → Prog α → Prop
  | sent, .ret _ => sent = []
  | _, .stuck => False
  | sent, .call (.malloc _) k => ∀ r, Writes fd good sent (k r)
  | sent, .call (.sockWrite fd' (.memory bytes)) k =>
    fd' = fd ∧ (∃ frame, good frame ∧ sent ++ bytes <+: frame) ∧
      (∀ n, Writes fd good (sent ++ bytes.take n.val) (k (some n))) ∧ ∃ a, k none = .ret a
  | sent, .call (.sockRead fd' _) _ => fd' = fd ∧ good sent
  | _, .call _ _ => False

theorem writes_store {size : UInt32} {out data : Bytes} {f : Bytes → Prog α} :
    Writes fd good sent (store size out data >>= f) ↔
      out.length + data.length ≤ size.toNat ∧ Writes fd good sent (f (out ++ data)) := by
  unfold store
  split
  · next h =>
    rw [Program.pure_eq, Program.ret_bind]
    exact ⟨fun hw => ⟨h, hw⟩, fun hw => hw.2⟩
  · next h =>
    rw [Program.stuck_bind]
    exact ⟨fun hw => hw.elim, fun hw => absurd hw.1 h⟩

theorem writes_load {buf : Bytes} {f : Bytes → Prog α} (hw : Writes fd good sent (f buf)) :
    Writes fd good sent (load buf 0 buf.length >>= f) := by
  rw [load_of_le (by omega), Program.ret_bind, List.drop_zero, List.take_length]
  exact hw

theorem writes_sendLoop {frame : Bytes} (hgood : good frame) (rounds : ℕ) (buf : Bytes)
    (total : ℕ) {f : Option ℕ → Prog α} (hrounds : buf.length ≤ rounds)
    (hframe : sent ++ buf <+: frame) (hnone : ∃ a, f none = .ret a)
    (hsome : ∀ total, Writes fd good (sent ++ buf) (f (some total))) :
    Writes fd good sent (sendLoop fd rounds (.memory buf) total >>= f) := by
  induction rounds generalizing sent buf total with
  | zero =>
    have hnil : buf = [] := List.eq_nil_of_length_eq_zero (by omega)
    subst hnil
    rw [List.append_nil] at hsome
    exact hsome total
  | succ rounds ih =>
    unfold sendLoop
    by_cases hzero : buf.length = 0
    · have hnil : buf = [] := List.eq_nil_of_length_eq_zero hzero
      subst hnil
      rw [List.append_nil] at hsome
      exact hsome total
    · rw [if_neg (show ¬ (Buffer.memory buf).length = 0 from hzero)]
      refine ⟨rfl, ⟨frame, hgood, hframe⟩, fun n => ?_, hnone⟩
      have hn : n.val ≤ buf.length := n.property.2
      have hpos := n.property.1
      have happ : sent ++ buf.take n.val ++ buf.drop n.val = sent ++ buf := by
        rw [List.append_assoc, List.take_append_drop]
      apply ih
      · rw [List.length_drop]
        omega
      · rw [happ]
        exact hframe
      · rw [happ]
        exact hsome

section Request
variable {opcode : UInt16} {payload : Bytes} {f : Option Line → Prog α}

theorem good_of_writes_sendRequest {payloadLen : UInt32}
    (h : Writes fd good [] (sendRequest fd opcode payload payloadLen >>= f)) :
    ∃ frame, good frame := by
  obtain ⟨-, ⟨frame, hgood, -⟩, -⟩ := h
  exact ⟨frame, hgood⟩

theorem writes_sendRequest (hlen : payload.length < 2 ^ 32)
    (hgood : good (serializeHeader (requestHeader opcode (UInt32.ofNat payload.length)) ++
      payload))
    (hfail : ∀ line, ∃ a, f (some line) = .ret a)
    (hsent : Writes fd good (serializeHeader (requestHeader opcode
      (UInt32.ofNat payload.length)) ++ payload) (f none)) :
    Writes fd good [] (sendRequest fd opcode payload (UInt32.ofNat payload.length) >>= f) := by
  have hnat : (UInt32.ofNat payload.length).toNat = payload.length := UInt32.toNat_ofNat_of_lt' hlen
  change Writes fd good []
    ((sendFull fd (.memory (serializeHeader (requestHeader opcode _))) >>= _) >>= f)
  rw [Program.bind_assoc]
  unfold sendFull
  apply writes_sendLoop hgood _ _ _ (le_refl _) (List.prefix_append _ _) (hfail _)
  intro total
  rw [List.nil_append]
  dsimp only
  by_cases hzero : 0 < UInt32.ofNat payload.length
  · rw [if_pos hzero, hnat, Program.bind_assoc]
    apply writes_load
    rw [Program.bind_assoc]
    exact writes_sendLoop hgood _ _ _ (le_refl _) (List.prefix_refl _) (hfail _) fun _ => hsent
  · have hnil : payload = [] := by
      rw [UInt32.lt_iff_toNat_lt, hnat] at hzero
      exact List.eq_nil_of_length_eq_zero (Nat.eq_zero_of_not_pos hzero)
    subst hnil
    rw [if_neg hzero]
    rw [List.append_nil] at hsent
    exact hsent

end Request

/-- The part of a name that its 16 bit length covers. -/
def cutName (name : Bytes) : Bytes := name.take (name.length % 65536)

theorem cutName_length (name : Bytes) : (cutName name).length = name.length % 65536 := by
  rw [cutName, List.length_take]
  exact Nat.min_eq_left (Nat.mod_le ..)

theorem cutName_of_lt {name : Bytes} (h : name.length < 65536) : cutName name = name := by
  rw [cutName, Nat.mod_eq_of_lt h, List.take_length]

theorem nameLen_eq (name : Bytes) :
    UInt16.ofNat name.length = UInt16.ofNat (cutName name).length := by
  apply UInt16.toNat_inj.mp
  rw [cutName_length, UInt16.toNat_ofNat', UInt16.toNat_ofNat', Nat.mod_mod]

theorem take_nameLen (name : Bytes) :
    name.take (UInt16.ofNat name.length).toNat = cutName name := by
  rw [UInt16.toNat_ofNat']
  rfl

section Named
variable {opcode : UInt16} {name rest : Bytes} {extra : UInt32} {answered : Prog Result}

/-- A command that takes a name sends the start of it that the cast leaves. -/
theorem writes_namedRequest (hrest : rest.length = extra.toNat) (hextra : extra.toNat ≤ 8)
    (hgood : good (serializeHeader (requestHeader opcode (UInt32.ofNat
      (2 + (cutName name).length + rest.length))) ++
        (toBytes 2 (cutName name).length ++ (cutName name ++ rest))))
    (hanswered : ∀ frame, good frame → Writes fd good frame answered) :
    Writes fd good [] (namedRequest fd opcode name rest extra answered) := by
  have hname : (cutName name).length < 65536 := by
    rw [cutName_length]
    omega
  have hoffset := offset_toNat hname extra hextra
  have hwrite : writeU16 (UInt16.ofNat (cutName name).length) =
      toBytes 2 (cutName name).length := by
    rw [writeU16, UInt16.toNat_ofNat', Nat.mod_eq_of_lt hname]
  unfold namedRequest
  dsimp only
  rw [take_nameLen, nameLen_eq, hwrite]
  intro allocated
  cases allocated with
  | false => rfl
  | true =>
    refine writes_store.mpr ⟨?_, writes_store.mpr ⟨?_, writes_store.mpr ⟨?_, ?_⟩⟩⟩
    · rw [hoffset, List.length_nil, toBytes_length]
      omega
    · rw [hoffset, List.length_append, List.length_nil, toBytes_length]
      omega
    · rw [hoffset, List.length_append, List.length_append, List.length_nil, toBytes_length]
      omega
    · have hpayload : [] ++ toBytes 2 (cutName name).length ++ cutName name ++ rest =
          toBytes 2 (cutName name).length ++ (cutName name ++ rest) := by
        rw [List.nil_append, List.append_assoc]
      have hlength : (toBytes 2 (cutName name).length ++ (cutName name ++ rest)).length =
          2 + (cutName name).length + rest.length := by
        simp only [List.length_append, toBytes_length]
        omega
      have hlen : 2 + (UInt16.ofNat (cutName name).length).toUInt32 + extra =
          UInt32.ofNat (toBytes 2 (cutName name).length ++ (cutName name ++ rest)).length := by
        apply UInt32.toNat_inj.mp
        rw [hoffset, hlength, hrest, UInt32.toNat_ofNat']
        omega
      rw [hpayload, hlen]
      rw [← hlength] at hgood
      exact writes_sendRequest (by omega) hgood (fun line => ⟨_, rfl⟩) (hanswered _ hgood)

theorem good_of_writes_namedRequest
    (h : Writes fd good [] (namedRequest fd opcode name rest extra answered)) :
    ∃ frame, good frame := by
  have h1 := (writes_store.mp (h true)).2
  have h2 := (writes_store.mp h1).2
  have h3 := (writes_store.mp h2).2
  exact good_of_writes_sendRequest h3

end Named

theorem writes_readResponseHeader {frame : Bytes} {f : Except Line Header → Prog α}
    (h : good frame) : Writes fd good frame (readResponseHeader fd >>= f) := ⟨rfl, h⟩

/-- A command that takes a name, of any length, is the command on the cut name. -/
theorem writes_named (op : Operation) (name rest : Bytes) {extra : UInt32}
    {answered : Prog Result} (hrest : rest.length = extra.toNat) (hextra : extra.toNat ≤ 8)
    (hname : nameOf op = cutName name)
    (hpayload : payloadOf op = toBytes 2 (cutName name).length ++ (cutName name ++ rest))
    (hgood : ∀ frame, ServedAs frame op → good frame)
    (hanswered : ∀ frame, good frame → Writes fd good frame answered) :
    Writes fd good [] (namedRequest fd op.opcode name rest extra answered) := by
  have hcut := cutName_length name
  have hlen : (payloadOf op).length = 2 + (cutName name).length + rest.length := by
    rw [hpayload]
    simp only [List.length_append, toBytes_length]
    omega
  have hshort : ¬ TooLong op := by
    unfold TooLong
    rw [hname, hlen]
    omega
  have hserved := servedAs_payloadOf hshort
  rw [hlen, hpayload] at hserved
  exact writes_namedRequest hrest hextra (hgood _ hserved) hanswered

theorem doDownload_writes (fd : ℕ) (out : Output) (name : Bytes) :
    Writes fd (ServedAs · (.download (cutName name))) [] (doDownload fd out name) := by
  apply writes_named (.download (cutName name)) name [] rfl (by decide) rfl
  · rw [List.append_nil]
    rfl
  · exact fun _ h => h
  · exact fun _ h => writes_readResponseHeader h

theorem doDelete_writes (fd : ℕ) (name : Bytes) :
    Writes fd (ServedAs · (.delete (cutName name))) [] (doDelete fd name) := by
  apply writes_named (.delete (cutName name)) name [] rfl (by decide) rfl
  · rw [List.append_nil]
    rfl
  · exact fun _ h => h
  · exact fun _ h => writes_readResponseHeader h

theorem doChmod_writes (name modeStr : Bytes)
    (hgood : ∀ frame, ServedAs frame
      (.chmod (cutName name) (UInt32.ofInt (strtolOctal modeStr))) → good frame) :
    Writes fd good [] (doChmod fd name modeStr) :=
  writes_named (.chmod (cutName name) (UInt32.ofInt (strtolOctal modeStr))) name _
    (toBytes_length ..) (by decide) rfl rfl hgood fun _ h => writes_readResponseHeader h

theorem upload_length (name body : Bytes) :
    (uploadPayload name body).length = 2 + name.length + 8 + body.length := by
  simp only [uploadPayload, List.length_append, toBytes_length]
  omega

theorem doUpload_writes (fd : ℕ) (io : Input) (file : LocalFile) (name : Bytes)
    (hsize : 2 + (cutName name).length + 8 + file.content.length < 2 ^ 32) :
    Writes fd (ServedAs · (.upload (cutName name) file.content)) []
      (doUpload fd io file name) := by
  have hname : (cutName name).length < 65536 := by
    rw [cutName_length]
    omega
  have hoffset := offset_toNat hname 8 (by decide)
  have hwrite : writeU16 (UInt16.ofNat (cutName name).length) =
      toBytes 2 (cutName name).length := by
    rw [writeU16, UInt16.toNat_ofNat', Nat.mod_eq_of_lt hname]
  have hdeclared : writeU64 (UInt64.ofNat file.content.length) =
      toBytes 8 file.content.length := by
    rw [writeU64, UInt64.toNat_ofNat', Nat.mod_eq_of_lt (by omega)]
  have hpayloadLen : 2 + (UInt16.ofNat (cutName name).length).toUInt32 + 8 +
      UInt32.ofNat file.content.length =
        UInt32.ofNat (uploadPayload (cutName name) file.content).length := by
    apply UInt32.toNat_inj.mp
    rw [UInt32.toNat_add, hoffset, UInt32.toNat_ofNat', UInt32.toNat_ofNat', upload_length]
    simp only [UInt32.reduceToNat]
    omega
  have hnat : (UInt32.ofNat (uploadPayload (cutName name) file.content).length).toNat =
      2 + (cutName name).length + 8 + file.content.length := by
    rw [UInt32.toNat_ofNat', upload_length]
    exact Nat.mod_eq_of_lt hsize
  have hshort : ¬ TooLong (.upload (cutName name) file.content) := by
    simp only [TooLong, nameOf, payloadOf, upload_length]
    omega
  have hserved := servedAs_payloadOf hshort
  unfold doUpload
  dsimp only
  rw [take_nameLen, nameLen_eq, hwrite, hdeclared, hpayloadLen]
  cases io.opens with
  | false => rfl
  | true =>
    cases io.tells with
    | false => rfl
    | true =>
      intro allocated
      cases allocated with
      | false => rfl
      | true =>
        have hread : (file.content.take io.delivered).length ≤ file.content.length :=
          List.length_take_le' ..
        refine writes_store.mpr ⟨?_, writes_store.mpr ⟨?_, writes_store.mpr ⟨?_,
          writes_store.mpr ⟨?_, ?_⟩⟩⟩⟩
        · rw [hnat, List.length_nil, toBytes_length]
          omega
        · rw [hnat, List.length_append, List.length_nil, toBytes_length]
          omega
        · rw [hnat, List.length_append, List.length_append, List.length_nil, toBytes_length,
            toBytes_length]
          omega
        · rw [hnat, List.length_append, List.length_append, List.length_append, List.length_nil,
            toBytes_length, toBytes_length]
          omega
        · by_cases hfull : (file.content.take io.delivered).length ≠ file.content.length
          · rw [if_pos hfull]
            rfl
          · have hall : file.content.take io.delivered = file.content := by
              rw [List.take_eq_self_iff]
              rw [List.length_take] at hfull
              omega
            have hpayload : [] ++ toBytes 2 (cutName name).length ++ cutName name ++
                toBytes 8 file.content.length ++ file.content =
                  uploadPayload (cutName name) file.content := by
              simp only [uploadPayload, List.nil_append, List.append_assoc]
            rw [if_neg hfull, hall, hpayload]
            refine writes_sendRequest ?_ hserved (fun line => ⟨_, rfl⟩)
              (writes_readResponseHeader hserved)
            rw [upload_length]
            omega

/-- An upload whose file opens and is read in full sends a request. -/
theorem good_of_writes_doUpload {file : LocalFile} {name : Bytes}
    (h : Writes fd good [] (doUpload fd ⟨true, true, file.content.length⟩ file name)) :
    ∃ frame, good frame := by
  have h1 := (writes_store.mp (h true)).2
  have h2 := (writes_store.mp h1).2
  have h3 := (writes_store.mp h2).2
  have h4 := (writes_store.mp h3).2
  rw [if_neg (by simp)] at h4
  exact good_of_writes_sendRequest h4

theorem store_bind_stuck {size : UInt32} {out data : Bytes} {f : Bytes → Prog α}
    (h : out.length + data.length ≤ size.toNat → f (out ++ data) = .stuck) :
    (store size out data >>= f) = .stuck := by
  unfold store
  split
  · next hfits => exact h hfits
  · rfl

/-- An upload whose length does not fit 32 bits is written behind its payload. -/
theorem doUpload_overflows (fd : ℕ) (file : LocalFile) (name : Bytes)
    (hsize : 2 ^ 32 ≤ 2 + (cutName name).length + 8 + file.content.length) :
    ∃ n k, doUpload fd ⟨true, true, file.content.length⟩ file name = .call (.malloc n) k ∧
      k true = .stuck := by
  have hname : (cutName name).length < 65536 := by
    rw [cutName_length]
    omega
  have hoffset := offset_toNat hname 8 (by decide)
  unfold doUpload
  dsimp only
  rw [take_nameLen, nameLen_eq]
  refine ⟨_, _, rfl, ?_⟩
  refine store_bind_stuck fun _ => store_bind_stuck fun _ => store_bind_stuck fun _ =>
    store_bind_stuck fun h => ?_
  rw [UInt32.toNat_add, hoffset, UInt32.toNat_ofNat'] at h
  simp only [writeU16, writeU64, List.length_append, List.length_nil, toBytes_length,
    List.take_length, UInt32.reduceToNat] at h
  omega

/-- A mode as it is typed. -/
structure OctalNumeral where
  digits : Bytes
  nonempty : digits ≠ []
  octal : ∀ d ∈ digits, isOctal d = true

def OctalNumeral.value (n : OctalNumeral) : ℕ := octalValue n.digits

theorem not_space_of_octal {d : UInt8} (h : isOctal d = true) :
    isSpace d = false ∧ d ≠ 0x2D ∧ d ≠ 0x2B := by
  simp only [isOctal, decide_eq_true_eq, UInt8.le_iff_toNat_le] at h
  simp only [isSpace, decide_eq_false_iff_not, ← UInt8.toNat_inj, UInt8.le_iff_toNat_le, ne_eq]
  simp only [UInt8.reduceToNat] at h ⊢
  omega

theorem strtolOctal_numeral (n : OctalNumeral) :
    strtolOctal n.digits = min (n.value : ℤ) (2 ^ 63 - 1) := by
  obtain ⟨digits, hne, hoctal⟩ := n
  have htake : digits.takeWhile isOctal = digits := List.takeWhile_eq_self_iff.mpr hoctal
  unfold OctalNumeral.value
  cases digits with
  | nil => exact absurd rfl hne
  | cons d ds =>
    obtain ⟨hspace, hminus, hplus⟩ := not_space_of_octal (hoctal d List.mem_cons_self)
    have hdrop : (d :: ds).dropWhile isSpace = d :: ds :=
      List.dropWhile_cons_of_neg (by rw [hspace]; decide)
    unfold strtolOctal
    rw [hdrop]
    split
    · next heq => exact absurd (List.cons.inj heq).1 hminus
    · next heq => exact absurd (List.cons.inj heq).1 hplus
    · rw [htake]

theorem mode_toNat {n : OctalNumeral} (h : n.value < 2 ^ 32) :
    (UInt32.ofInt (strtolOctal n.digits)).toNat = n.value := by
  have hint : strtolOctal n.digits = (n.value : ℤ) := by
    rw [strtolOctal_numeral]
    omega
  rw [hint, UInt32.ofInt, UInt32.toNat_ofNat']
  omega

section FrameBounds
variable (fd : ℕ) (name : Bytes)

theorem doUpload_frames_iff (file : LocalFile) :
    (∀ io, Writes fd (ServedAs · (.upload name file.content)) [] (doUpload fd io file name)) ↔
      name.length < 65536 ∧ 2 + name.length + 8 + file.content.length < 2 ^ 32 := by
  constructor
  · intro h
    obtain ⟨frame, hframe⟩ := good_of_writes_doUpload (h _)
    have hshort := not_tooLong_of_servedAs hframe
    simp only [TooLong, nameOf, payloadOf, upload_length] at hshort
    omega
  · intro h io
    have hw := doUpload_writes fd io file name
    rw [cutName_of_lt h.1] at hw
    exact hw h.2

theorem named_frames_iff {op : Operation} {p : Prog Result} (hname : nameOf op = name)
    (hcut : cutName name = name → Writes fd (ServedAs · op) [] p)
    (hgood : ∀ good : Bytes → Prop, Writes fd good [] p → ∃ frame, good frame) :
    Writes fd (ServedAs · op) [] p ↔ name.length < 65536 := by
  constructor
  · intro h
    obtain ⟨frame, hframe⟩ := hgood _ h
    have hshort := not_tooLong_of_servedAs hframe
    unfold TooLong at hshort
    rw [hname] at hshort
    omega
  · intro h
    exact hcut (cutName_of_lt h)

/-- The frames of a command that carry a mode as it was typed. -/
def ServedAsChmod (mode : OctalNumeral) (frame : Bytes) : Prop :=
  ∃ m : UInt32, m.toNat = mode.value ∧ ServedAs frame (.chmod name m)

theorem doChmod_frames_iff (mode : OctalNumeral) :
    Writes fd (ServedAsChmod name mode) [] (doChmod fd name mode.digits) ↔
      name.length < 65536 ∧ mode.value < 2 ^ 32 := by
  constructor
  · intro h
    obtain ⟨frame, m, hm, hframe⟩ := good_of_writes_namedRequest h
    have hshort := not_tooLong_of_servedAs hframe
    have hlt := m.toNat_lt
    unfold TooLong at hshort
    simp only [nameOf] at hshort
    omega
  · intro h
    apply doChmod_writes
    intro frame hframe
    rw [cutName_of_lt h.1] at hframe
    exact ⟨_, mode_toNat h.2, hframe⟩

/-- A command fails before it sends a byte, or it sends one frame that the server takes for
its operation, and it builds the frame inside its buffer, exactly when the lengths and the
mode fit their fields. -/
theorem command_frames_iff (file : LocalFile) (out : Output) (mode : OctalNumeral) :
    ((∀ io, Writes fd (ServedAs · (.upload name file.content)) [] (doUpload fd io file name)) ↔
      name.length < 65536 ∧ 2 + name.length + 8 + file.content.length < 2 ^ 32) ∧
    (Writes fd (ServedAs · (.download name)) [] (doDownload fd out name) ↔
      name.length < 65536) ∧
    (Writes fd (ServedAs · (.delete name)) [] (doDelete fd name) ↔ name.length < 65536) ∧
    (Writes fd (ServedAsChmod name mode) [] (doChmod fd name mode.digits) ↔
      name.length < 65536 ∧ mode.value < 2 ^ 32) := by
  refine ⟨doUpload_frames_iff fd name file, ?_, ?_, doChmod_frames_iff fd name mode⟩
  · apply named_frames_iff fd name rfl
    · intro hcut
      have hw := doDownload_writes fd out name
      rwa [hcut] at hw
    · exact fun good h => good_of_writes_namedRequest h
  · apply named_frames_iff fd name rfl
    · intro hcut
      have hw := doDelete_writes fd name
      rwa [hcut] at hw
    · exact fun good h => good_of_writes_namedRequest h

end FrameBounds

/-- A name of 65537 bytes: the client deletes the file that is named by its first byte. -/
theorem deletes_another :
    ¬ Writes 5 (ServedAs · (.delete (List.replicate 65537 0x61))) []
      (doDelete 5 (List.replicate 65537 0x61)) ∧
    Writes 5 (ServedAs · (.delete [0x61])) [] (doDelete 5 (List.replicate 65537 0x61)) := by
  constructor
  · intro h
    obtain ⟨frame, hframe⟩ := good_of_writes_namedRequest h
    have hshort := not_tooLong_of_servedAs hframe
    simp only [TooLong, nameOf, List.length_replicate] at hshort
    omega
  · have hcut : cutName (List.replicate 65537 0x61) = [0x61] := by
      rw [cutName, List.length_replicate, List.take_replicate]
      rfl
    have hw := doDelete_writes 5 (List.replicate 65537 0x61)
    rwa [hcut] at hw

end NervFS.CommandFrames
