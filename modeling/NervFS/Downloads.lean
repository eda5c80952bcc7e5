import NervFS.CommandSafety
import NervFS.CommandFrames
import NervFS.BridgeStreams

/-!
The exit status of a download and what it leaves in the local file, against any stream and
any outcome of the calls on that file. The command takes the status of a simple result for
its own when the response is not file data, trusts the size in front of the data, and does
not look at what `fwrite` returns.
-/
namespace NervFS.Downloads

open Programs BigEndian Calls Protocol Handlers Requests CommandLine CommandReplies
open CommandFrames CommandSafety Transfers BridgeStreams

def Readable (stream : Bytes) : Prop :=
  nervfsHeaderSize ≤ stream.length ∧ Accepted (streamHeader stream)

instance (stream : Bytes) : Decidable (Readable stream) := inferInstanceAs (Decidable (_ ∧ _))

/-- The size in front of the file data. -/
def announced (stream : Bytes) : ℕ := ofBytes ((stream.drop nervfsHeaderSize).take 8)

/-- The stream holds a whole file data message, and the message the whole file. -/
structure Complete (stream : Bytes) : Prop where
  readable : Readable stream
  opcode : (streamHeader stream).opcode = opRespFileData
  arrived : nervfsHeaderSize + (streamHeader stream).payloadLen.toNat ≤ stream.length
  holds : 8 + announced stream ≤ (streamHeader stream).payloadLen.toNat

def responseBody (stream : Bytes) : Bytes :=
  (stream.drop nervfsHeaderSize).take (streamHeader stream).payloadLen.toNat

/-- The file in the body of the response. -/
def fileOf (stream : Bytes) : Bytes := ((responseBody stream).drop 8).take (announced stream)

/-- Success is reported for a saved file only, and the local file is left alone when there is
none in the response. -/
structure Faithful (stream : Bytes) (r : Result) : Prop where
  saved : r.rc = 0 → r.saved = some (fileOf stream) ∧ (fileOf stream).length = announced stream
  kept : ¬ Complete stream → r.rc ≠ 0 ∧ r.saved = none

/-- What this takes of a response whose header is accepted. -/
structure Behaved (out : Output) (stream : Bytes) : Prop where
  not_ok : (streamHeader stream).opcode ≠ opRespOk
  error : (streamHeader stream).opcode = opRespErr →
    nervfsHeaderSize + (streamHeader stream).payloadLen.toNat ≤ stream.length →
      ErrorPrints (responseBody stream)
  file : (streamHeader stream).opcode = opRespFileData →
    nervfsHeaderSize + 8 + announced stream ≤ stream.length → announced stream < 2 ^ 63 →
      out.opens = true →
        8 + announced stream ≤ (streamHeader stream).payloadLen.toNat ∧
        nervfsHeaderSize + (streamHeader stream).payloadLen.toNat ≤ stream.length ∧
        announced stream ≤ out.written

theorem faithful_failed (stream : Bytes) (lines : List Line) :
    Faithful stream ⟨1, lines, none⟩ where
  saved h := absurd h Nat.one_ne_zero
  kept _ := ⟨Nat.one_ne_zero, rfl⟩

theorem not_faithful_ok (stream : Bytes) (lines : List Line) :
    ¬ Faithful stream ⟨0, lines, none⟩ := fun h => by
  cases (h.saved rfl).1

section Commands
variable {α : Type} {Q : α → Bytes → Prop} {fd : ℕ} {stream : Bytes}

theorem always_sendRequest_iff {opcode : UInt16} {payload : Bytes} {payloadLen : UInt32}
    {f : Option Line → Prog α} (hlen : payloadLen.toNat ≤ payload.length)
    (hfail : ∀ text, Always Q (f (some (.complaint text))) stream) :
    Always Q (sendRequest fd opcode payload payloadLen >>= f) stream ↔
      Always Q (f none) stream := by
  unfold sendRequest
  rw [Program.bind_assoc]
  by_cases hpos : 0 < payloadLen
  · refine (always_sendFull_iff (fun _ => rfl) (hfail _)).trans ?_
    dsimp only
    rw [if_pos hpos, load_of_le (by omega), Program.ret_bind, Program.bind_assoc]
    exact always_sendFull_iff (fun _ => rfl) (hfail _)
  · refine (always_sendFull_iff (fun _ => rfl) (hfail _)).trans ?_
    dsimp only
    rw [if_neg hpos]
    exact Iff.rfl

theorem always_namedRequest_iff {Q : Result → Bytes → Prop} {opcode : UInt16}
    {name bytes : Bytes} {extra : UInt32} {answered : Prog Result}
    (hbytes : bytes.length = extra.toNat) (hextra : extra.toNat ≤ 8)
    (hfail : ∀ lines, Q ⟨1, lines, none⟩ stream) :
    Always Q (namedRequest fd opcode name bytes extra answered) stream ↔
      Always Q answered stream := by
  have hname : (cutName name).length < 65536 := by
    rw [cutName_length]
    omega
  have hoffset := offset_toNat hname extra hextra
  have hfirst : (writeU16 (UInt16.ofNat (cutName name).length)).length = 2 := toBytes_length ..
  unfold namedRequest
  dsimp only
  rw [take_nameLen, nameLen_eq]
  refine always_malloc_iff.trans ?_
  refine (and_iff_left ?_).trans ?_
  · exact hfail []
  · rw [if_neg (show ¬ (!true) = true from Bool.false_ne_true), store_of_le, Program.ret_bind,
      store_of_le, Program.ret_bind, store_of_le, Program.ret_bind]
    · refine always_sendRequest_iff ?_ fun text => hfail _
      rw [hoffset, List.length_append, List.length_append, List.length_append, List.length_nil,
        hfirst, hbytes]
    · rw [hoffset, List.length_append, List.length_append, List.length_nil, hfirst, hbytes]
    · rw [hoffset, List.length_append, List.length_nil, hfirst]
      omega
    · rw [hoffset, List.length_nil, hfirst]
      omega

/-- A size that is too large for a signed number equals no count. -/
theorem eq_toInt64_iff {n : ℕ} {size : UInt64} :
    (n : ℤ) = size.toInt64.toInt ↔ n = size.toNat ∧ size.toNat < 2 ^ 63 := by
  have hlt : size.toNat < 2 ^ 64 := size.toNat_lt
  have hsigned : size.toInt64.toInt = (size.toNat : ℤ).bmod (2 ^ 64) := by
    have h : (Int64.ofNat size.toNat).toInt = _ := Int64.toInt_ofNat'
    rwa [← UInt64.toInt64_ofNat', UInt64.ofNat_toNat] at h
  rw [hsigned, Int.bmod_def]
  omega

/-- The loop of a receive compares its count with the size as a signed number. -/
theorem always_recvFileBody_iff {size : UInt64} {f : Option Bytes → Prog α}
    (hfail : ∀ left, Always Q (f none) left) :
    Always Q (recvFileBody fd size >>= f) stream ↔
      (size.toNat < 2 ^ 63 → size.toNat ≤ stream.length →
        Always Q (f (some (stream.take size.toNat))) (stream.drop size.toNat)) := by
  unfold recvFileBody
  by_cases hpos : 0 < size
  · rw [if_pos hpos, Program.bind_assoc]
    refine always_malloc_iff.trans ((and_iff_left (hfail _)).trans ?_)
    rw [if_neg (show ¬ (!true) = true from Bool.false_ne_true), Program.bind_assoc]
    refine (always_recvFull_iff ?_).trans ?_
    · intro left
      exact hfail left
    dsimp only
    by_cases hfull : ((stream.take size.toNat).length : ℤ) = size.toInt64.toInt
    · rw [if_pos hfull]
      rw [eq_toInt64_iff, List.length_take] at hfull
      constructor
      · intro h _ _
        exact h
      · intro h
        exact h hfull.2 (by omega)
    · rw [if_neg hfull]
      refine iff_of_true (hfail _) fun hsmall hle => ?_
      exact absurd (eq_toInt64_iff.mpr ⟨List.length_take_of_le hle, hsmall⟩) hfull
  · have hzero : size.toNat = 0 := by
      rw [UInt64.lt_iff_toNat_lt] at hpos
      exact Nat.eq_zero_of_not_pos hpos
    rw [if_neg hpos, hzero]
    constructor
    · intro h _ _
      exact h
    · intro h
      exact h (by decide) (Nat.zero_le _)

theorem printSimpleResult_faithful_iff (hle : nervfsHeaderSize ≤ stream.length) :
    Always (fun r _ => Faithful stream r) (printSimpleResult fd (streamHeader stream))
      (stream.drop nervfsHeaderSize) ↔
    (streamHeader stream).opcode ≠ opRespOk ∧
      ((streamHeader stream).opcode = opRespErr →
        nervfsHeaderSize + (streamHeader stream).payloadLen.toNat ≤ stream.length →
          ErrorPrints (responseBody stream)) := by
  have hdrop : (stream.drop nervfsHeaderSize).length = stream.length - nervfsHeaderSize :=
    List.length_drop
  by_cases hok : (streamHeader stream).opcode = opRespOk
  · refine iff_of_false (fun h => ?_) fun h => h.1 hok
    obtain ⟨r, _, hfaithful, lines, rfl⟩ := h.exists_both (printSimpleResult_ok hok)
    exact not_faithful_ok stream lines hfaithful
  · rw [and_iff_right hok]
    unfold printSimpleResult
    rw [if_neg hok]
    by_cases herr : (streamHeader stream).opcode = opRespErr
    · rw [if_pos herr]
      refine always_malloc_iff.trans ?_
      dsimp only
      rw [if_pos rfl]
      refine (and_iff_left (faithful_failed _ _)).trans ?_
      refine (always_recvExactly_iff ?_).trans ?_
      · intro left
        exact faithful_failed _ _
      dsimp only
      rw [hdrop, forall_prop_of_true herr]
      change (_ → Always _ (readU16 (responseBody stream) 0 >>= fun errCode =>
        readU16 (responseBody stream) 2 >>= fun msgLen =>
          printText ((responseBody stream).drop 4) msgLen.toNat >>= fun text =>
            (.ret ⟨1, [.error errCode text], none⟩ : Prog Result)) _) ↔ _
      by_cases hprints : ErrorPrints (responseBody stream)
      · obtain ⟨errCode, text, htext⟩ := errorText_of_prints hprints
        rw [htext]
        exact iff_of_true (fun _ => faithful_failed _ _) fun _ => hprints
      · rw [errorText_of_not_prints hprints]
        constructor
        · intro h harrived
          exact (h (by omega)).elim
        · intro h harrived
          exact absurd (h (by omega)) hprints
    · rw [if_neg herr]
      exact iff_of_true (faithful_failed _ _) fun h => absurd h herr

/-- What is saved is the file exactly when the whole message is there, the file in it, and
all of it is written. -/
theorem faithful_saved_iff {line : Line} {written : ℕ} (hreadable : Readable stream)
    (hop : (streamHeader stream).opcode = opRespFileData)
    (hthere : nervfsHeaderSize + 8 + announced stream ≤ stream.length) :
    Faithful stream ⟨0, [line],
      some ((((stream.drop nervfsHeaderSize).drop 8).take (announced stream)).take written)⟩ ↔
    8 + announced stream ≤ (streamHeader stream).payloadLen.toNat ∧
      nervfsHeaderSize + (streamHeader stream).payloadLen.toNat ≤ stream.length ∧
      announced stream ≤ written := by
  have hlen : (((stream.drop nervfsHeaderSize).drop 8).take (announced stream)).length =
      announced stream := by
    apply List.length_take_of_le
    rw [List.length_drop, List.length_drop]
    omega
  constructor
  · intro h
    have hcomplete : Complete stream := by
      by_contra hnot
      exact (h.kept hnot).1 rfl
    refine ⟨hcomplete.holds, hcomplete.arrived, ?_⟩
    obtain ⟨hfile, hsize⟩ := h.saved rfl
    rw [← Option.some.inj hfile, List.length_take, hlen] at hsize
    omega
  · rintro ⟨hholds, harrived, hwritten⟩
    have hfile : fileOf stream =
        ((stream.drop nervfsHeaderSize).drop 8).take (announced stream) := by
      unfold fileOf responseBody
      rw [List.drop_take, List.take_take, Nat.min_eq_left (by omega)]
    refine ⟨fun _ => ?_, fun hnot => absurd ⟨hreadable, hop, harrived, hholds⟩ hnot⟩
    rw [hfile, List.take_of_length_le (by omega)]
    exact ⟨rfl, hlen⟩

theorem saveDownload_faithful_iff {out : Output} (hreadable : Readable stream)
    (hop : (streamHeader stream).opcode = opRespFileData) :
    Always (fun r _ => Faithful stream r) (saveDownload fd out (streamHeader stream))
      (stream.drop nervfsHeaderSize) ↔
    (nervfsHeaderSize + 8 + announced stream ≤ stream.length → announced stream < 2 ^ 63 →
      out.opens = true →
        8 + announced stream ≤ (streamHeader stream).payloadLen.toNat ∧
        nervfsHeaderSize + (streamHeader stream).payloadLen.toNat ≤ stream.length ∧
        announced stream ≤ out.written) := by
  have hdrop : (stream.drop nervfsHeaderSize).length = stream.length - nervfsHeaderSize :=
    List.length_drop
  have h0n : (0 : UInt32).toNat = 0 := rfl
  unfold saveDownload
  refine (always_recvExactly_iff ?_).trans ?_
  · intro left
    exact faithful_failed _ _
  by_cases h8 : 8 ≤ (stream.drop nervfsHeaderSize).length
  · have hlen : ((stream.drop nervfsHeaderSize).take 8).length = 8 := List.length_take_of_le h8
    have hrest : ((stream.drop nervfsHeaderSize).drop 8).length =
        stream.length - nervfsHeaderSize - 8 := by
      rw [List.length_drop, hdrop]
    have hsize : (UInt64.ofNat (announced stream)).toNat = announced stream :=
      UInt64.toNat_ofNat_of_lt' (declaredSize_lt stream nervfsHeaderSize)
    have hread : readU64 ((stream.drop nervfsHeaderSize).take 8) 0 =
        .ret (UInt64.ofNat (announced stream)) := by
      rw [readU64_of_le (by omega), h0n, List.drop_zero, List.take_take]
      rfl
    rw [forall_prop_of_true h8]
    dsimp only
    rw [hread, Program.ret_bind]
    refine (always_recvFileBody_iff ?_).trans ?_
    · intro left
      exact faithful_failed _ _
    dsimp only
    rw [hsize, hrest]
    constructor
    · intro h hthere hsmall hopens
      have hsaved := h hsmall (by omega)
      rw [hopens] at hsaved
      exact (faithful_saved_iff hreadable hop hthere).mp hsaved
    · intro h hsmall hle
      cases hopens : out.opens with
      | false => exact faithful_failed _ _
      | true =>
        have hthere : nervfsHeaderSize + 8 + announced stream ≤ stream.length := by omega
        exact (faithful_saved_iff hreadable hop hthere).mpr (h hthere hsmall hopens)
  · refine iff_of_true (fun h => absurd h h8) fun h => ?_
    omega

/-- An answer is read off a stream that has a header to accept in front, which it is then. -/
theorem forall_response_iff {P : Header → Prop} :
    (∀ resp, nervfsHeaderSize ≤ stream.length →
      parseHeader (stream.take nervfsHeaderSize) = some resp → P resp) ↔
    (Readable stream → P (streamHeader stream)) := by
  rw [parseHeader_accepted]
  constructor
  · intro h hreadable
    exact h _ hreadable.1 (if_pos hreadable.2)
  · intro h resp hle hresp
    obtain ⟨hacc, heq⟩ := Option.ite_none_right_eq_some.mp hresp
    rw [← Option.some.inj heq]
    exact h ⟨hle, hacc⟩

theorem readDownload_faithful_iff (out : Output) :
    Always (fun r _ => Faithful stream r) (readDownload fd out) stream ↔
      (Readable stream → Behaved out stream) := by
  unfold readDownload
  refine (always_readHeader_iff ?_).trans ?_
  · intro text left
    exact faithful_failed _ _
  refine forall_response_iff.trans (forall_congr' fun hreadable => ?_)
  dsimp only
  by_cases hop : (streamHeader stream).opcode = opRespFileData
  · rw [if_neg (not_not.mpr hop), saveDownload_faithful_iff hreadable hop]
    constructor
    · intro h
      refine ⟨?_, ?_, fun _ => h⟩
      · rw [hop]
        decide
      · intro herr
        rw [hop] at herr
        exact absurd herr (by decide)
    · intro h
      exact h.file hop
  · rw [if_pos hop, printSimpleResult_faithful_iff hreadable.1]
    constructor
    · intro h
      exact ⟨h.1, h.2, fun hfile => absurd hfile hop⟩
    · intro h
      exact ⟨h.not_ok, h.error⟩

/-- The status of a download can be relied on, in any surroundings, exactly when the response
and the local file are as they should be. -/
theorem download_faithful_iff (fd : ℕ) (out : Output) (remoteName stream : Bytes) :
    Always (fun r _ => Faithful stream r) (doDownload fd out remoteName) stream ↔
      (Readable stream → Behaved out stream) :=
  (always_namedRequest_iff rfl (by decide) fun lines => faithful_failed stream lines).trans
    (readDownload_faithful_iff out)

end Commands

/-- A response that holds the one byte `a`. -/
def sampleStream : Bytes :=
  serializeHeader (responseHeader opRespFileData 9 0) ++ [0, 0, 0, 0, 0, 0, 0, 1, 0x61]

theorem download_faithful_sample :
    Always (fun r _ => Faithful sampleStream r) (doDownload 3 ⟨true, 1⟩ [0x61]) sampleStream := by
  apply (download_faithful_iff 3 ⟨true, 1⟩ [0x61] sampleStream).mpr
  intro _
  refine ⟨by decide, fun h => absurd h (by decide), fun _ _ _ _ => by decide⟩

/-- The answer to an upload, sent to a download. -/
def okStream : Bytes := serializeHeader (responseHeader opRespOk 0 0)

theorem ok_is_success :
    ¬ Always (fun r _ => Faithful okStream r) (doDownload 3 ⟨true, 1⟩ [0x61]) okStream := by
  intro h
  have hbehaved := (always_namedRequest_iff rfl (by decide)
    fun lines => faithful_failed okStream lines).mp h
  exact ((readDownload_faithful_iff ⟨true, 1⟩).mp hbehaved (by decide)).not_ok (by decide)

end NervFS.Downloads
