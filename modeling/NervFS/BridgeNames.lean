import NervFS.Catalog

/-!
The names that the bridge shows to its users. A name on the wire is any string of bytes
without a slash or a null byte, and the bridge decodes it as UTF-8. What it shows for a file
leads back to the file, and no two files look alike, exactly when every name is well formed.
-/
namespace NervFS.BridgeNames

open Programs Transitions Calls Protocol FileOps Handlers Requests Operations Kernel Responses
open Alone Listings FailedUploads Bridge BridgeFrames BridgeReader BridgeReplies World Replies
open Workers Serving Catalog

/-- The calls of the bridge that name a file by the text reach the file with the name. -/
structure Addresses (name : Bytes) (text : List Char) : Prop where
  download : ∀ events, ServedAs (downloadFile events text).written (.download name)
  delete : ∀ events, ServedAs (deleteFile events text).written (.delete name)
  chmod : ∀ events (mode : UInt32),
    ServedAs (chmodFile events text mode.toNat).written (.chmod name mode)

/-- The response to a listing, however it is cut, is made into one text for each file: the
text addresses the file, and no text occurs twice. -/
def NamesReturn (host : Host) (s : Server) : Prop :=
  ∀ lister : Request, Asks lister .list → ∃ s' us entries files, Encodable entries ∧
    Lists (fun n => (node s.files n).current) entries ∧
    respond host s lister = some (s', frame opRespListData us (listBody entries)) ∧
    (∀ (chunks : List Bytes) (events : List Event),
      chunks.flatten = frame opRespListData us (listBody entries) →
      (listFiles (chunks.map Event.data ++ events)).settled = some (.ok ⟨files, us⟩)) ∧
    List.Forall₂ (fun e f => Addresses e.name f.name) entries files ∧
    (files.map FileInfo.name).Nodup

/-- Every file has a name that is well-formed UTF-8. -/
def TextNames (σ : Bytes → Node) : Prop :=
  ∀ name, (σ name).current ≠ none → Utf8.WellFormed name

/-- The request gives no file a name that is not well-formed UTF-8. -/
def KeepsText (host : Host) (s : Server) (r : Request) : Prop :=
  match operationOf r with
  | .ok (.upload name _) => ValidName host.root pathMax name →
    (node s.files name).current = none → Utf8.WellFormed name
  | _ => True

section Names
variable {host : Host} {s : Server} {name : Bytes}

theorem servedAs_unique {bytes : Bytes} {op op' : Operation} (h : ServedAs bytes op)
    (h' : ServedAs bytes op') : op = op' := by
  obtain ⟨header, hparse, -, -, hdecode, -⟩ := h
  obtain ⟨header', hparse', -, -, hdecode', -⟩ := h'
  rw [hparse] at hparse'
  cases hparse'
  rw [hdecode] at hdecode'
  exact Except.ok.inj hdecode'

theorem not_servedAs_nil (op : Operation) : ¬ ServedAs [] op := by
  intro h
  obtain ⟨header, hparse, -⟩ := h
  cases hparse

theorem addresses_iff {text : List Char} (hshort : name.length ≤ nervfsMaxNameLen) :
    Addresses name text ↔ Utf8.encode text = name := by
  constructor
  · intro h
    obtain ⟨-, hsends, -⟩ := bridge_frames [] text [] 0
    have hshort : ¬ TooLong (.download (Utf8.encode text)) := by
      intro htoo
      obtain ⟨hnil, -⟩ := hsends.throws_iff.mpr htoo
      have hserved := h.download []
      rw [hnil] at hserved
      exact not_servedAs_nil _ hserved
    have heq := servedAs_unique (hsends.frame hshort) (h.download [])
    injection heq
  · intro h
    have hlen : (Utf8.encode text).length ≤ 255 := by
      rw [h]
      exact hshort
    have hdownload : ¬ TooLong (.download (Utf8.encode text)) := by
      simp only [TooLong, nameOf, payloadOf, namePayload, List.length_append,
        BigEndian.toBytes_length]
      omega
    have hchmod : ∀ mode, ¬ TooLong (.chmod (Utf8.encode text) mode) := by
      intro mode
      simp only [TooLong, nameOf, payloadOf, chmodPayload, List.length_append,
        BigEndian.toBytes_length]
      omega
    rw [← h]
    constructor
    · intro events
      exact (bridge_frames events text [] 0).2.1.frame hdownload
    · intro events
      exact (bridge_frames events text [] 0).2.2.1.frame hdownload
    · intro events mode
      exact (bridge_frames events text [] mode).2.2.2.frame (hchmod mode)

/-- What the bridge shows for a file addresses it exactly when the name is well formed. -/
theorem addresses_decode_iff (hshort : name.length ≤ nervfsMaxNameLen) :
    Addresses name (Utf8.decode name) ↔ Utf8.WellFormed name := by
  rw [addresses_iff hshort]
  exact Utf8.encode_decode_iff

/-- The files that the bridge makes of the response to a listing. -/
theorem listFiles_frame {entries : List Dirent} (us : UInt64) (henc : Encodable entries)
    {chunks : List Bytes} (events : List Event)
    (hchunks : chunks.flatten = frame opRespListData us (listBody entries)) :
    (listFiles (chunks.map Event.data ++ events)).settled =
      some (.ok ⟨entries.map fileInfo, us⟩) := by
  have hverdict := verdict_frame opRespListData us [] henc.total
  rw [List.append_nil, ← hchunks] at hverdict
  have hbind : ∀ resp : Response, (Except.ok resp >>= listResult) = listResult resp :=
    fun _ => rfl
  rw [listFiles_settled, readResponse_chunks events hverdict, Option.map_some, hbind,
    listResult_listing us henc]

theorem names_return_iff (h : Inv host s) :
    NamesReturn host s ↔ Fits s.files ∧ TextNames (node s.files) := by
  constructor
  · intro hreturn
    obtain ⟨s', us, entries, files, henc, hlists, hrespond, hfiles, haddress, -⟩ :=
      hreturn _ lister_asks
    refine ⟨?_, fun name hcur => ?_⟩
    · by_contra hbig
      unfold respond at hrespond
      rw [request_stuck lister_asks.complete lister_asks.calm h.sound lister_asks.operation hbig]
        at hrespond
      cases hrespond
    · have hone : [frame opRespListData us (listBody entries)].flatten =
          frame opRespListData us (listBody entries) := List.append_nil _
      have hshown := hfiles _ [] hone
      rw [listFiles_frame us henc [] hone] at hshown
      cases hshown
      rw [List.forall₂_map_right_iff, List.forall₂_same] at haddress
      have hlisted := mt (lists_sound h hlists).mp hcur
      simp only [not_forall, not_not] at hlisted
      obtain ⟨e, he, rfl⟩ := hlisted
      exact (addresses_decode_iff (henc.names e he)).mp (haddress e he)
  · intro hand lister hlister
    obtain ⟨hfits, htext⟩ := hand
    obtain ⟨s', us, entries, hrespond, henc, hlists⟩ := respond_list h hfits hlister
    have hwell : ∀ e ∈ entries, Utf8.WellFormed e.name := by
      intro e he
      obtain ⟨f, hf, -⟩ := (hlists.mem_iff e).mp he
      exact htext e.name (by rw [hf]; exact nofun)
    refine ⟨s', us, entries, entries.map fileInfo, henc, hlists, hrespond, ?_, ?_, ?_⟩
    · intro chunks events hchunks
      exact listFiles_frame us henc events hchunks
    · rw [List.forall₂_map_right_iff, List.forall₂_same]
      intro e he
      exact (addresses_decode_iff (henc.names e he)).mpr (hwell e he)
    · have hsame : ((entries.map fileInfo).map FileInfo.name).map Utf8.encode =
          entries.map Dirent.name := by
        rw [List.map_map, List.map_map]
        apply List.map_congr_left
        intro e he
        exact Utf8.encode_decode_iff.mpr (hwell e he)
      apply List.Nodup.of_map Utf8.encode
      rw [hsame]
      exact hlists.nodup

theorem textNames_update {σ : Bytes → Node} {v : Node} (h : TextNames σ)
    (hv : v.current ≠ none → Utf8.WellFormed name) : TextNames (Function.update σ name v) := by
  intro n hn
  by_cases hname : n = name
  · subst hname
    rw [Function.update_self] at hn
    exact hv hn
  · rw [Function.update_of_ne hname] at hn
    exact h n hn

theorem textNames_step {r : Request} {σ' : Bytes → Node} {msg : Message}
    (hkeeps : KeepsText host s r)
    (hanswered : Answered host (node s.files) (operationOf r) σ' msg)
    (h : TextNames (node s.files)) : TextNames σ' := by
  unfold KeepsText at hkeeps
  generalize operationOf r = request at hanswered hkeeps
  cases hanswered with
  | @stored name body us networkUs writeUs syncUs hname hopen =>
    apply textNames_update h
    intro _
    by_cases hcur : (node s.files name).current = none
    · exact hkeeps hname hcur
    · exact h name hcur
  | deleted us hname hf =>
    apply textNames_update h
    intro hno
    exact absurd rfl hno
  | @changed name mode us hname hf =>
    apply textNames_update h
    intro _
    exact h name hf
  | _ => exact h

/-- In a state that the server can reach, the names that the bridge shows lead back to their
files exactly when the listing fits and all of them are well formed; a run without an upload
under an ill-formed name only reaches such states as long as the listing fits. -/
theorem bridge_names_iff :
    (∀ xs s, Run (Where (ServerStep host) fun s x _ => Ordinary s x.1) {} xs s →
      (NamesReturn host s ↔ Fits s.files ∧ TextNames (node s.files))) ∧
    ∀ xs s, Run (Where (ServerStep host) fun s x _ => Ordinary s x.1 ∧ KeepsText host s x.1)
      {} xs s → (NamesReturn host s ↔ Fits s.files) := by
  constructor
  · intro xs s hrun
    exact names_return_iff (hrun.invariant inv_start
      fun s x s' hi hs => inv_step hi hs.2 hs.1)
  · intro xs s hrun
    have hinv : Inv host s ∧ TextNames (node s.files) := by
      apply hrun.invariant (I := fun s => Inv host s ∧ TextNames (node s.files))
      · exact ⟨inv_start, fun name hno => absurd rfl hno⟩
      · intro s x s' hi hs
        obtain ⟨hstep, hordinary, hkeeps⟩ := hs
        obtain ⟨-, msg, hanswered, -⟩ := serverStep_ends hi.1 hordinary hstep
        exact ⟨inv_step hi.1 hordinary hstep, textNames_step hkeeps hanswered hi.2⟩
    rw [names_return_iff hinv.1]
    exact and_iff_left hinv.2

end Names

/-- Two files whose names are one byte each, neither of which is well formed. -/
def lookalikes : List (Request × Bytes) :=
  [(plainRequest 5 opReqUpload (uploadPayload [0xFF] [1]), frame opRespOk 0 (metricsBody 0 0 0)),
    (plainRequest 6 opReqUpload (uploadPayload [0xFE] [2]), frame opRespOk 0 (metricsBody 0 0 0))]

def alike : Server where
  files := AList.insert [0xFE] { current := some ⟨[2], 0o644⟩ }
    (AList.insert [0xFF] { current := some ⟨[1], 0o644⟩ } ∅)

theorem lookalikes_run :
    Run (Where (ServerStep sampleHost) fun s x _ => Ordinary s x.1) {} lookalikes alike := by
  have hfirst : ServerStep sampleHost {} (lookalikes.get ⟨0, by decide⟩)
      { files := AList.insert [0xFF] { current := some ⟨[1], 0o644⟩ } ∅ } := rfl
  have hsecond : ServerStep sampleHost
      { files := AList.insert [0xFF] { current := some ⟨[1], 0o644⟩ } ∅ }
      (lookalikes.get ⟨1, by decide⟩) alike := rfl
  exact Run.cons ⟨hfirst, plainRequest_ordinary (by decide) (by decide)⟩
    (Run.single ⟨hsecond, plainRequest_ordinary (by decide) (by decide)⟩)

theorem illFormed_ff : ¬ Utf8.WellFormed [0xFF] := by
  intro h
  exact absurd (Utf8.encode_decode_iff.mpr h) (by decide)

/-- Both files are shown under the same text, and it leads to neither. -/
theorem lookalikes_shown_alike :
    Run (Where (ServerStep sampleHost) fun s x _ => Ordinary s x.1) {} lookalikes alike ∧
      ¬ NamesReturn sampleHost alike ∧
      Utf8.decode [0xFF] = Utf8.decode [0xFE] ∧
      ¬ Addresses [0xFF] (Utf8.decode [0xFF]) := by
  have hinv : Inv sampleHost alike := lookalikes_run.invariant inv_start
    fun s x s' hi hs => inv_step hi hs.2 hs.1
  refine ⟨lookalikes_run, fun hreturn => ?_, by decide, fun haddress => ?_⟩
  · exact illFormed_ff (((names_return_iff hinv).mp hreturn).2 [0xFF] nofun)
  · exact illFormed_ff ((addresses_decode_iff (by decide)).mp haddress)

end NervFS.BridgeNames
