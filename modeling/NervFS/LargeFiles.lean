import NervFS.FailedUploads
import NervFS.BridgeReplies
import NervFS.CommandReplies

/-!
Downloads of files of any size. The header of the response announces the size modulo 2^32,
while the size field of the body is exact. The command line client goes by the size field
and saves the whole file; the bridge reads what the header announces, so from 2^32 - 8
bytes on it returns the start of the file, unless not even the size field is announced.
-/
namespace NervFS.LargeFiles

open Programs KeyedStore KeyedStore.Semantics BigEndian Calls Protocol FileOps Handlers Requests
open Kernel NodeBuffer Responses Alone FailedUploads Bridge BridgeReader BridgeReplies
open CommandLine CommandReplies

/-- The number of body bytes that the header of a file's response announces. -/
def announced (size : ℕ) : ℕ := (8 + size) % 2 ^ 32

/-- The response tells the size of the file, or announces less than the size field. -/
def Announces (size : ℕ) : Prop := 8 + size < 2 ^ 32 ∨ announced size < 8

theorem fileBody_length (content : Bytes) : (fileBody content).length = 8 + content.length := by
  simp only [fileBody, writeU64, List.length_append, toBytes_length]

/-- Rounding the end of the file data never cuts what was announced. -/
theorem le_dataEnd {n size : ℕ} (hn : n < 2 ^ 32) (hle : n ≤ 8 + size) :
    n ≤ toNumber (8 + toNumber size) := by
  have hend : ∀ m, n ≤ m → n ≤ toNumber m := by
    intro m hm
    by_cases h : m < 2 ^ 53
    · rw [toNumber_of_lt h]
      exact hm
    · have hlarge := le_toNumber (Nat.le_of_not_lt h)
      omega
  apply hend
  by_cases h : size < 2 ^ 53
  · rw [toNumber_of_lt h]
    exact hle
  · have hlarge := le_toNumber (Nat.le_of_not_lt h)
    omega

/-- The download that the bridge makes of a response: what the header has announced. -/
theorem downloadResult_announced (payloadLen : UInt32) (elapsedUs : UInt64) (content : Bytes)
    (h : content.length < 2 ^ 64) :
    downloadResult ⟨responseHeader opRespFileData payloadLen elapsedUs,
      (fileBody content).take (announced content.length)⟩ =
        if announced content.length < 8 then .error .rangeError
        else .ok ⟨content.take (announced content.length - 8), elapsedUs⟩ := by
  have hlen := fileBody_length content
  have hle : announced content.length ≤ 8 + content.length := Nat.mod_le ..
  have hlt : announced content.length < 2 ^ 32 := Nat.mod_lt _ (by omega)
  have hnat : (UInt64.ofNat content.length).toNat = content.length := UInt64.toNat_ofNat_of_lt' h
  have hchecked : ∀ rest : Js Downloaded,
      (throwIfError (responseHeader opRespFileData payloadLen elapsedUs)
        ((fileBody content).take (announced content.length)) >>= fun _ =>
          expectOpcode (responseHeader opRespFileData payloadLen elapsedUs) opRespFileData >>=
            fun _ => rest) = rest := fun _ => rfl
  refine (hchecked _).trans ?_
  by_cases hshort : announced content.length < 8
  · have hread : readUIntBE 8 ((fileBody content).take (announced content.length)) 0 = none := by
      refine if_neg ?_
      rw [List.length_take]
      omega
    rw [if_pos hshort]
    simp only [hread, inRange, bind, Except.bind]
  · have htake : (fileBody content).take (announced content.length) =
        toBytes 8 content.length ++ content.take (announced content.length - 8) := by
      rw [fileBody, writeU64, hnat, List.take_append, toBytes_length,
        List.take_of_length_le (by rw [toBytes_length]; omega)]
    have hread : readUIntBE 8 ((fileBody content).take (announced content.length)) 0 =
        some content.length := by
      rw [htake]
      exact readUIntBE_toBytes [] _ h
    have hend := le_dataEnd hlt hle
    have hsub : subarray ((fileBody content).take (announced content.length)) 8
        (toNumber (8 + toNumber content.length)) =
          content.take (announced content.length - 8) := by
      unfold subarray
      rw [List.take_of_length_le (by rw [List.length_take]; omega), htake,
        List.drop_left' (toBytes_length ..)]
    rw [if_neg hshort]
    simp only [hread, inRange, bind, Except.bind, hsub]
    rfl

/-- The data that both clients make of the response to a download agree with the file,
unless the bridge rejects. -/
def DownloadsExactly (content stream : Bytes) : Prop :=
  ∀ filename (chunks : List Bytes) events, chunks.flatten = stream →
    (∃ e, (downloadFile (chunks.map Event.data ++ events) filename).settled =
      some (.error e)) ∨
    ∃ d, (downloadFile (chunks.map Event.data ++ events) filename).settled = some (.ok d) ∧
      d.data = content ∧ ∀ fd (out : Output), out.opens = true → content.length ≤ out.written →
        ∃ lines, Reads (readDownload fd out) stream ⟨0, lines, some d.data⟩ []

theorem downloadFile_tooLong {filename : List Char} (events : List Event)
    (h : ¬ (Utf8.encode filename).length < 65536) :
    (downloadFile events filename).settled = some (.error .rangeError) := by
  unfold downloadFile
  rw [BridgeFrames.filenamePayload_eq, if_neg h]
  rfl

/-- What the bridge makes of the response to a download, however it is cut. -/
theorem downloadFile_announced {filename : List Char} {chunks : List Bytes} (events : List Event)
    (elapsedUs : UInt64) {content : Bytes} (h : content.length < 2 ^ 64)
    (hname : (Utf8.encode filename).length < 65536)
    (hchunks : chunks.flatten = fileFrame elapsedUs content) :
    (downloadFile (chunks.map Event.data ++ events) filename).settled =
      some (if announced content.length < 8 then .error .rangeError
        else .ok ⟨content.take (announced content.length - 8), elapsedUs⟩) := by
  have hverdict := verdict_announced opRespFileData elapsedUs (fileBody content) []
  have hframe : frame opRespFileData elapsedUs (fileBody content) = fileFrame elapsedUs content :=
    rfl
  rw [List.append_nil, fileBody_length, hframe, ← hchunks] at hverdict
  have hread := readResponse_chunks events hverdict
  rw [downloadFile_settled _ hname, hread]
  exact congrArg some (downloadResult_announced _ elapsedUs content h)

theorem readDownload_whole (fd : ℕ) (out : Output) (elapsedUs : UInt64) {content : Bytes}
    (h : content.length < 2 ^ 63) (hopens : out.opens = true)
    (hwritten : content.length ≤ out.written) :
    Reads (readDownload fd out) (fileFrame elapsedUs content)
      ⟨0, [.downloaded (UInt64.ofNat content.length) elapsedUs], some content⟩ [] := by
  have hread := reads_file fd [] out elapsedUs h hopens hwritten
    (UInt32.ofNat (fileBody content).length)
  rw [List.append_nil] at hread
  exact hread

theorem downloadsExactly_iff (elapsedUs : UInt64) {content : Bytes}
    (h : content.length < 2 ^ 63) :
    DownloadsExactly content (fileFrame elapsedUs content) ↔ Announces content.length := by
  have h64 : content.length < 2 ^ 64 := by omega
  constructor
  · intro hexact
    by_cases hshort : announced content.length < 8
    · exact Or.inr hshort
    · left
      have hone := hexact [] [fileFrame elapsedUs content] [] (List.append_nil _)
      rw [downloadFile_announced [] elapsedUs h64 (by decide) (List.append_nil _),
        if_neg hshort] at hone
      rcases hone with ⟨e, he⟩ | ⟨d, hd, hdata, -⟩
      · cases he
      · cases hd
        have hlen := congrArg List.length hdata
        rw [List.length_take] at hlen
        unfold announced at hlen hshort
        omega
  · intro hann filename chunks events hchunks
    by_cases hname : (Utf8.encode filename).length < 65536
    · rw [downloadFile_announced events elapsedUs h64 hname hchunks]
      by_cases hshort : announced content.length < 8
      · rw [if_pos hshort]
        exact Or.inl ⟨_, rfl⟩
      · rw [if_neg hshort]
        have hwhole : content.take (announced content.length - 8) = content := by
          apply List.take_of_length_le
          have hsize := hann.resolve_right hshort
          unfold announced
          omega
        rw [hwhole]
        exact Or.inr ⟨_, rfl, rfl, fun fd out hopens hwritten =>
          ⟨_, readDownload_whole fd out elapsedUs h hopens hwritten⟩⟩
    · exact Or.inl ⟨_, downloadFile_tooLong _ hname⟩

section Server
variable {host : Host} {σ : Bytes → Node} {clientFd : ℕ} {name : Bytes} {l : Local}

/-- The calls of a download on an existing file succeed. -/
structure Serves (host : Host) (v : Node) (l : Local) : Prop where
  opens : OpensRead host v l
  fstats : l.outcomes.fstats.headD true = true
  mmaps : l.outcomes.mmaps.headD true = true

theorem handleDownload_serves {content : File} (payloadLen : UInt32)
    (hlen : payloadLen.toNat = (namePayload name).length) (hname : ValidName host.root pathMax name)
    (hcur : (σ name).current = some content) (hserves : Serves host (σ name) l)
    (hl : Delivers l) :
    (handleDownload host.root clientFd (namePayload name) payloadLen).wp
      (semantics host).handle
      (fun _ s => ∃ us, s.2.sent = l.sent ++ fileFrame us content.bytes) (σ, l) := by
  have hfields : nameField msgDownloadTooShort msgDownloadMalformed (namePayload name) =
      .ok name := by
    have hshort := hname.short
    apply Operations.nameField_ok_iff.mpr
    exact ⟨by unfold nervfsMaxNameLen at hshort; omega, rfl⟩
  rw [handleDownload_eq _ _ _ _ hlen, hfields]
  unfold Except.map namedOf
  dsimp only
  rw [safeResolvePath_eq_some hname]
  refine quiet_wp (idle_acquire rfl) rfl fun _ => downloadLocked_wp hl ?_ ?_ ?_
  · intro hno
    rcases hno with hno | hno
    · exact absurd hserves.opens hno
    · rw [hserves.fstats] at hno
      cases hno
  · intro hno
    rw [hserves.mmaps] at hno
    cases hno
  · intro _ found hfound l' us hsent
    rw [hcur] at hfound
    cases hfound
    exact ⟨us, hsent⟩

/-- The bridge returns the file that the server serves, and the same that the command line
client saves, or rejects, exactly when the size fits the header. -/
theorem downloads_exactly_iff (content : File) (payloadLen : UInt32)
    (hlen : payloadLen.toNat = (namePayload name).length) (hname : ValidName host.root pathMax name)
    (hcur : (σ name).current = some content) (hsize : content.bytes.length < 2 ^ 63)
    (hserves : Serves host (σ name) l) (hl : Delivers l) :
    (handleDownload host.root clientFd (namePayload name) payloadLen).wp
      (semantics host).handle
      (fun _ s => ∃ stream, s.2.sent = l.sent ++ stream ∧
        (DownloadsExactly content.bytes stream ↔ Announces content.bytes.length)) (σ, l) := by
  refine Program.wp_mono (handleDownload_serves payloadLen hlen hname hcur hserves hl) ?_
  intro _ s hs
  obtain ⟨us, hsent⟩ := hs
  exact ⟨_, hsent, downloadsExactly_iff us hsize⟩

end Server

section Samples

theorem sampleName_valid : ValidName sampleHost.root pathMax [0x61] := by
  constructor <;> decide

theorem sample_serves (bytes : Bytes) :
    Serves sampleHost { current := some ⟨bytes, 0o644⟩ } {} :=
  ⟨⟨rfl, _, rfl, rfl⟩, rfl, rfl⟩

theorem delivers_start : Delivers {} := fun _ h => nomatch h

theorem downloads_exactly_iff_sample :
    (handleDownload sampleHost.root 5 (namePayload [0x61]) 3).wp (semantics sampleHost).handle
      (fun _ s => ∃ stream, s.2.sent = [] ++ stream ∧
        (DownloadsExactly [7] stream ↔ Announces 1)) (fun _ => ⟨[], some ⟨[7], 0o644⟩⟩, {}) :=
  downloads_exactly_iff ⟨[7], 0o644⟩ 3 rfl sampleName_valid rfl (by decide) (sample_serves [7])
    delivers_start

theorem download_at_bound {content : Bytes} (hlen : content.length = 2 ^ 32) :
    (handleDownload sampleHost.root 5 (namePayload [0x61]) 3).wp (semantics sampleHost).handle
      (fun _ s => ∃ stream, s.2.sent = [] ++ stream ∧ ¬ DownloadsExactly content stream ∧
        ∃ d, (downloadFile [.data stream] ['a']).settled = some (.ok d) ∧ d.data = [])
      (fun _ => ⟨[], some ⟨content, 0o644⟩⟩, {}) := by
  have hann : announced content.length = 8 := by
    unfold announced
    omega
  refine Program.wp_mono (handleDownload_serves 3 rfl sampleName_valid rfl
    (sample_serves content) delivers_start) ?_
  intro _ s hs
  obtain ⟨us, hsent⟩ := hs
  refine ⟨_, hsent, ?_, ?_⟩
  · rw [downloadsExactly_iff us (by omega)]
    unfold Announces
    omega
  · have hone : [fileFrame us content].flatten = fileFrame us content := List.append_nil _
    have hread := downloadFile_announced [] us (by omega)
      (show (Utf8.encode ['a']).length < 65536 by decide) hone
    rw [hann, if_neg (by omega)] at hread
    exact ⟨_, hread, rfl⟩

/-- Of a file of 2^32 bytes the bridge returns none. -/
theorem download_of_4GiB_empty :
    (handleDownload sampleHost.root 5 (namePayload [0x61]) 3).wp (semantics sampleHost).handle
      (fun _ s => ∃ stream, s.2.sent = [] ++ stream ∧
        ¬ DownloadsExactly (List.replicate (2 ^ 32) 0) stream ∧
        ∃ d, (downloadFile [.data stream] ['a']).settled = some (.ok d) ∧ d.data = [])
      (fun _ => ⟨[], some ⟨List.replicate (2 ^ 32) 0, 0o644⟩⟩, {}) :=
  download_at_bound List.length_replicate

end Samples

end NervFS.LargeFiles
