import NervFS.GatewayRuns

/-!
The page that the bridge is used from. Its table has a row for every file of a listing, and
the controls of a row build requests out of the name that the row shows. They lead back to
the row's file. What was saved through the page is what it shows later and gives back, the
contents and the mode each until a request changes it.
-/
namespace NervFS.Frontend

open Transitions Calls FileOps Handlers Operations Kernel Responses Bridge BridgeReplies World
open Replies Workers Serving Catalog AdminTokens Exchanges Gateway GatewayRuns Numerals
open FailedUploads (sampleHost)

/-- The path of the requests that download and delete a file. -/
def filePath (name : List Char) : List Char := "/files/".toList ++ encodeURIComponent name

def permissionsPath (name : List Char) : List Char := filePath name ++ "/permissions".toList

def formatMode (mode : ℕ) : List Char := padStart 4 '0' (Nat.toDigits 8 mode)

/-- `/^[0-7]{3,4}$/` -/
def isModeText (text : List Char) : Bool :=
  (text.length == 3 || text.length == 4) && text.all fun c => decide (IsDigit 8 c)

/-- The mode that a dialog with the text asks for; `none` is an error in the dialog. -/
def handleSubmit (modeText : List Char) : Option ℤ :=
  if !isModeText modeText then none else parseInt 8 modeText

/-- The body of the request for a mode, as it is parsed on the other side. -/
def permissionsBody (mode : ℤ) : Json := .object [(literal "mode", .number mode)]

def decodeURIComponent (text : List Char) : Option (List Char) := Percent.decode text

/-- Where the path of a request leads: the parameter that the route of a file, and the one of
its permissions, gets from it. -/
structure Routing where
  file : List Char → Option (List Char)
  permissions : List Char → Option (List Char)

/-- A browser takes a segment as it is when all its characters may stand in a path and it is no
dot segment, and a parameter of a route is one segment, decoded. -/
structure Routing.Documented (routing : Routing) : Prop where
  file : ∀ segment name, (∀ c ∈ segment, isUnreserved c = true ∨ c = '%') →
    decodeURIComponent segment = some name → name ≠ [] → name ≠ ['.'] → name ≠ ['.', '.'] →
      routing.file ("/files/".toList ++ segment) = some name
  permissions : ∀ segment name, (∀ c ∈ segment, isUnreserved c = true ∨ c = '%') →
    decodeURIComponent segment = some name → name ≠ [] → name ≠ ['.'] → name ≠ ['.', '.'] →
      routing.permissions ("/files/".toList ++ segment ++ "/permissions".toList) = some name

/-- The text of a mode is its decimal digits. -/
def PlainModes (rt : Runtime) : Prop := ∀ n : ℕ, n ≤ 0o7777 → rt.numberText n = Nat.toDigits 10 n

/-- The controls of a row ask for the file with the name. -/
structure LeadsTo (routing : Routing) (rt : Runtime) (row : FileInfo) (name : Bytes) : Prop where
  download : ∃ text, routing.file (filePath row.name) = some text ∧
    Route.Asks rt (.files (.download text)) (.download name)
  delete : ∃ text, routing.file (filePath row.name) = some text ∧
    Route.Asks rt (.files (.delete text)) (.delete name)
  permissions : ∀ modeText mode, handleSubmit modeText = some mode → ∃ text n,
    routing.permissions (permissionsPath row.name) = some text ∧
      formatMode n = padStart 4 '0' modeText ∧
      Route.Asks rt (.files (.permissions text (permissionsBody mode)))
        (.chmod name (UInt32.ofNat n))
  /-- what the dialog has in it when it opens -/
  unchanged : handleSubmit (formatMode row.mode) = some (row.mode : ℤ)

/-- The operations of a run, as they are made one after another. -/
abbrev Performing (host : Host) (m : FileMap) (p : Performed) (m' : FileMap) : Prop :=
  Performs host m p.operation m' p.message

/-- The rows are those of the files after the operations, one for each, and lead to them. -/
def Shows (routing : Routing) (rt : Runtime) (host : Host) (before : List Performed)
    (rows : List FileInfo) : Prop :=
  ∃ m entries, Run (Performing host) ∅ before m ∧
    Lists (fun n => m.lookup n) entries ∧ rows = entries.map fileInfo ∧
    (rows.map FileInfo.name).Nodup ∧ ∀ e ∈ entries, LeadsTo routing rt (fileInfo e) e.name

/-- Saving the text in the dialog of a file has succeeded. -/
def Saved (acts : List Act) (i : ℕ) (name modeText : List Char) : Prop :=
  ∃ q mode us, q.route = .files (.permissions name (permissionsBody mode)) ∧
    handleSubmit modeText = some mode ∧ .send i q ∈ acts ∧ .settle i (okPage us) ∈ acts

/-- An upload has succeeded. -/
def Stored (acts : List Act) (i : ℕ) (name : List Char) (buffer : Bytes) : Prop :=
  ∃ q result, q.route = .files (.upload (some (name, buffer))) ∧ .send i q ∈ acts ∧
    .settle i (uploadedPage result) ∈ acts

/-- The header of a download gives the name, quoted and in full. -/
def SavedUnder (disposition name : List Char) : Prop :=
  ∃ value, disposition = "attachment; filename=\"".toList ++ (value ++
      ("\"; filename*=UTF-8''".toList ++ value)) ∧
    '"' ∉ value ∧ decodeURIComponent value = some name

/-- The operation for one request comes after that for another, with these in between. -/
def Between (performed : List Performed) (i j : ℕ) (between : List Performed) : Prop :=
  ∃ before p l after, performed = before ++ p :: (between ++ l :: after) ∧ p.index = i ∧
    l.index = j

section Modes
variable {modeText : List Char}

theorem isModeText_iff : isModeText modeText = true ↔
    (modeText.length = 3 ∨ modeText.length = 4) ∧ ∀ c ∈ modeText, IsDigit 8 c := by
  unfold isModeText
  rw [Bool.and_eq_true, Bool.or_eq_true, beq_iff_eq, beq_iff_eq, List.all_eq_true]
  simp only [decide_eq_true_eq]

theorem handleSubmit_some {mode : ℤ} (h : handleSubmit modeText = some mode) :
    ∃ n : ℕ, mode = n ∧ n ≤ 0o7777 ∧ formatMode n = padStart 4 '0' modeText := by
  unfold handleSubmit at h
  cases htext : isModeText modeText with
  | false =>
    rw [htext] at h
    cases h
  | true =>
    obtain ⟨hlen, hdigits⟩ := isModeText_iff.mp htext
    have hne : modeText ≠ [] := List.ne_nil_of_length_pos (by omega)
    have hshort : modeText.length ≤ 4 := by omega
    rw [htext, parseInt_digits (by decide) hne hdigits] at h
    refine ⟨_, (Option.some.inj h).symm, ?_, padStart_toDigits (by decide) (by decide) hne hshort
      hdigits⟩
    have hlt := ofDigitChars_lt (show 1 < 8 by decide) hdigits
    have hpow : 8 ^ modeText.length ≤ 8 ^ 4 := Nat.pow_le_pow_right (by decide) hshort
    omega

theorem handleSubmit_formatMode {n : ℕ} (h : n ≤ 0o7777) :
    handleSubmit (formatMode n) = some (n : ℤ) := by
  have hshort : (Nat.toDigits 8 n).length ≤ 4 :=
    (Nat.length_toDigits_le_iff (by decide) (by decide)).mpr (Nat.lt_succ_of_le h)
  have htext : isModeText (formatMode n) = true :=
    isModeText_iff.mpr ⟨Or.inr (padStart_length hshort),
      isDigit_padStart (by decide) (isDigit_of_mem_toDigits (by decide) (by decide) n)⟩
  unfold handleSubmit
  rw [htext]
  exact parseInt_padStart (by decide) (by decide) 4 n

theorem parseMode_permissionsBody {rt : Runtime} (hplain : PlainModes rt) {n : ℕ}
    (h : n ≤ 0o7777) : parseMode rt (permissionsBody n) = some (some n) := by
  have hproperty : (permissionsBody n).property (literal "mode") = some (.number (n : ℤ)) := by
    simp [permissionsBody, Json.property]
  have hstring : stringOfValue rt (some (.number (n : ℤ))) =
      some (Utf16.encode (Nat.toDigits 10 n)) := by
    rw [← hplain n h]
    simp [stringOfValue, stringOf]
  unfold parseMode
  rw [hproperty, hstring]
  dsimp only
  rw [Utf16.decode_encode, parseInt_toDigits (by decide) (by decide)]
  dsimp only
  rw [if_neg (by omega), Int.toNat_natCast]

end Modes

section Names
variable {host : Host} {routing : Routing} {rt : Runtime} {text : List Char} {name : Bytes}

theorem mem_encodeURIComponent {c : Char} (h : c ∈ encodeURIComponent text) :
    isUnreserved c = true ∨ c = '%' := by
  rcases Percent.mem_encode h with hc | hc | ⟨n, hn, rfl⟩
  · exact Or.inl hc
  · exact Or.inr hc
  · left
    unfold isUnreserved
    rw [hexDigit_isAlphanum hn]
    rfl

theorem decode_encodeURIComponent (text : List Char) :
    decodeURIComponent (encodeURIComponent text) = some text :=
  Percent.decode_encode (by decide) text

theorem contentDisposition_saved (name : List Char) :
    SavedUnder (contentDisposition name) name := by
  refine ⟨safeFilename name, rfl, fun hquote => ?_, ?_⟩
  · rcases mem_safeFilename hquote with hquote | hquote
    · exact absurd hquote (by decide)
    · exact absurd hquote (by decide)
  · unfold decodeURIComponent
    rw [safeFilename_eq]
    exact Percent.decode_encode (by decide) name

/-- A text for a valid name is nothing that a browser or a router treats differently. -/
theorem text_plain (hname : ValidName host.root pathMax (Utf8.encode text)) :
    text ≠ [] ∧ text ≠ ['.'] ∧ text ≠ ['.', '.'] := by
  refine ⟨?_, ?_, ?_⟩
  · rintro rfl
    exact absurd hname.nonempty (by decide)
  · rintro rfl
    exact hname.not_dot (by decide)
  · rintro rfl
    exact hname.not_dotDot (by decide)

theorem filePath_leads (hrouting : routing.Documented)
    (hname : ValidName host.root pathMax (Utf8.encode text)) :
    routing.file (filePath text) = some text ∧
      routing.permissions (permissionsPath text) = some text := by
  obtain ⟨hempty, hdot, hdotDot⟩ := text_plain hname
  have hdecode := decode_encodeURIComponent text
  exact ⟨hrouting.file _ text (fun _ => mem_encodeURIComponent) hdecode hempty hdot hdotDot,
    hrouting.permissions _ text (fun _ => mem_encodeURIComponent) hdecode hempty hdot hdotDot⟩

/-- The row that shows a file under a well-formed name leads to the file. -/
theorem leadsTo_of_valid (hrouting : routing.Documented) (hplain : PlainModes rt)
    {row : FileInfo} (hname : ValidName host.root pathMax (Utf8.encode row.name))
    (hmode : row.mode ≤ 0o7777) : LeadsTo routing rt row (Utf8.encode row.name) := by
  obtain ⟨hfile, hpermissions⟩ := filePath_leads hrouting hname
  refine ⟨⟨_, hfile, .download _⟩, ⟨_, hfile, .delete _⟩, fun modeText mode hsubmit => ?_,
    handleSubmit_formatMode hmode⟩
  obtain ⟨n, rfl, hn, hformat⟩ := handleSubmit_some hsubmit
  exact ⟨_, n, hpermissions, hformat, .permissions _ (parseMode_permissionsBody hplain hn)⟩

end Names

section Files
variable {host : Host} {rt : Runtime} {m m' : FileMap} {op : Operation} {msg : Message}
variable {name : Bytes} {f : File}

/-- The file can be shown: its name is a text, and its attributes fit their fields. -/
structure Presentable (host : Host) (name : Bytes) (f : File) : Prop where
  valid : ValidName host.root pathMax name
  text : Utf8.WellFormed name
  size : f.bytes.length < 2 ^ 64
  mode : f.mode ≤ 0o7777

def AllPresentable (host : Host) (m : FileMap) : Prop :=
  ∀ name f, m.lookup name = some f → Presentable host name f

theorem allPresentable_insert (h : AllPresentable host m) (hf : Presentable host name f) :
    AllPresentable host (m.insert name f) := by
  intro n g hg
  by_cases hn : n = name
  · subst hn
    rw [Finmap.lookup_insert] at hg
    rw [← Option.some.inj hg]
    exact hf
  · rw [Finmap.lookup_insert_of_ne m hn] at hg
    exact h n g hg

/-- The operations of the routes keep files such that they can be shown. -/
theorem allPresentable_step {route : Route}
    (hasks : route.Asks rt op) (hshort : ¬ TooLong op) (hp : Performs host m op m' msg)
    (h : AllPresentable host m) : AllPresentable host m' := by
  have hbody : ∀ {name body : Bytes}, op = .upload name body →
      Utf8.WellFormed name ∧ body.length < 2 ^ 64 := by
    rintro name body rfl
    unfold TooLong at hshort
    simp only [nameOf, payloadOf, Requests.uploadPayload, List.length_append] at hshort
    cases hasks with
    | upload text => exact ⟨⟨text, rfl⟩, by omega⟩
  cases hp with
  | created us networkUs writeUs syncUs hname hf =>
    obtain ⟨htext, hsize⟩ := hbody rfl
    have hmode : host.newMode ≤ 0o7777 := (newMode_lt host).le.trans (by decide)
    exact allPresentable_insert h ⟨hname, htext, hsize, hmode⟩
  | replaced us networkUs writeUs syncUs hname hf =>
    obtain ⟨htext, hsize⟩ := hbody rfl
    exact allPresentable_insert h ⟨hname, htext, hsize, (h _ _ hf).mode⟩
  | @deleted name f us hname hf =>
    intro n g hg
    by_cases hn : n = name
    · subst hn
      rw [Finmap.lookup_erase] at hg
      cases hg
    · rw [Finmap.lookup_erase_ne hn] at hg
      exact h n g hg
  | changed us hname hf =>
    obtain ⟨-, htext, hsize, -⟩ := h _ _ hf
    exact allPresentable_insert h ⟨hname, htext, hsize, Nat.and_le_right⟩
  | _ => exact h

end Files

section Pages
variable {route : Route} {msg : Message}

theorem not_badGateway {response : HttpResponse} (h : response.status ≠ 502) :
    ¬ BadGateway response := by
  rintro ⟨message, rfl⟩
  exact h rfl

theorem filesPage_told {listing : Listing} (h : filesPage listing = pageFor route msg) :
    route = .files .list ∧ ∃ us entries, msg = .listing us entries ∧
      listing.files = entries.map fileInfo := by
  unfold pageFor at h
  split at h
  all_goals cases congrArg HttpResponse.page h
  exact ⟨rfl, _, _, rfl, rfl⟩

theorem okPage_told {us : UInt64} {name : List Char} {body : Json}
    (h : okPage us = pageFor (.files (.permissions name body)) msg) : msg = .ok us := by
  cases msg <;> cases congrArg HttpResponse.page h
  rfl

theorem uploadedPage_told {result : Uploaded} {file : Option (List Char × Bytes)}
    (h : uploadedPage result = pageFor (.files (.upload file)) msg) :
    ∃ us networkUs writeUs syncUs, msg = .metrics us networkUs writeUs syncUs := by
  cases msg <;> cases congrArg HttpResponse.page h
  exact ⟨_, _, _, _, rfl⟩

end Pages

section Runs
variable {cfg : Config} {host : Host} {times : Set ℚ} {routing : Routing} {acts more : List Act}
variable {s t : Site} {performed : List Performed} {m m' : FileMap} {name : Bytes} {f : File}

theorem run_presentable (hproper : ∀ p ∈ performed, p.Proper cfg)
    (hrun : Run (Performing host) ∅ performed m) : AllPresentable host m := by
  refine (hrun.where_of_mem hproper).invariant (I := AllPresentable host) ?_ ?_
  · intro name f hf
    rw [Finmap.lookup_empty] at hf
    cases hf
  · rintro m p m' h ⟨hp, hproper⟩
    exact allPresentable_step (asks_of_operation hproper.operation) hproper.short hp h

theorem run_contents (hrun : Run (Performing host) m performed m')
    (hkeep : ∀ p ∈ performed, ¬ ChangesContents name p.operation) (hf : m.lookup name = some f) :
    ∃ g, m'.lookup name = some g ∧ g.bytes = f.bytes := by
  refine (hrun.where_of_mem hkeep).invariant
    (I := fun m => ∃ g, m.lookup name = some g ∧ g.bytes = f.bytes) ⟨f, hf, rfl⟩ ?_
  rintro m p m' ⟨g, hg, hbytes⟩ ⟨hp, hop⟩
  obtain ⟨g', hg', hbytes'⟩ := performs_contents hp hop hg
  exact ⟨g', hg', hbytes'.trans hbytes⟩

theorem run_mode (hrun : Run (Performing host) m performed m')
    (hkeep : ∀ p ∈ performed, ¬ ChangesMode name p.operation) (hf : m.lookup name = some f) :
    ∃ g, m'.lookup name = some g ∧ g.mode = f.mode := by
  refine (hrun.where_of_mem hkeep).invariant
    (I := fun m => ∃ g, m.lookup name = some g ∧ g.mode = f.mode) ⟨f, hf, rfl⟩ ?_
  rintro m p m' ⟨g, hg, hmode⟩ ⟨hp, hop⟩
  obtain ⟨g', hg', hmode'⟩ := performs_mode hp hop hg
  exact ⟨g', hg', hmode'.trans hmode⟩

theorem rows_lead (hrouting : routing.Documented) (hplain : PlainModes cfg.rt)
    (hm : AllPresentable host m) {entries : List Dirent}
    (hlists : Lists (fun n => m.lookup n) entries) :
    ((entries.map fileInfo).map FileInfo.name).Nodup ∧
      ∀ e ∈ entries, LeadsTo routing cfg.rt (fileInfo e) e.name := by
  have htext : ∀ e ∈ entries, Utf8.encode (fileInfo e).name = e.name := by
    intro e he
    obtain ⟨f, hf, -⟩ := (hlists.mem_iff e).mp he
    exact Utf8.encode_decode_iff.mpr (hm _ _ hf).text
  constructor
  · rw [List.map_map]
    refine List.Nodup.map_on ?_ hlists.nodup.of_map
    intro e he e' he' heq
    apply List.inj_on_of_nodup_map hlists.nodup he he'
    rw [← htext e he, ← htext e' he']
    exact congrArg Utf8.encode heq
  · intro e he
    obtain ⟨f, hf, -, hmode⟩ := (hlists.mem_iff e).mp he
    have hfile := hm _ _ hf
    have hvalid := hfile.valid
    rw [← htext e he] at hvalid
    have hleads := leadsTo_of_valid hrouting hplain hvalid (hmode.trans_le hfile.mode)
    rwa [htext e he] at hleads

theorem row_of_lookup (hm : AllPresentable host m) {entries : List Dirent}
    (hlists : Lists (fun n => m.lookup n) entries) {name : List Char} {f : File}
    (hf : m.lookup (Utf8.encode name) = some f) : ∃ row : FileInfo,
      (row ∈ entries.map fileInfo ∧ row.name = name ∧ row.mode = f.mode) ∧
        ∀ row' ∈ entries.map fileInfo, row'.name = name → row' = row := by
  have hfile := hm _ _ hf
  let e : Dirent := ⟨Utf8.encode name, UInt64.ofNat f.bytes.length, UInt32.ofNat f.mode⟩
  have hsize : e.size.toNat = f.bytes.length := by
    rw [UInt64.toNat_ofNat', Nat.mod_eq_of_lt hfile.size]
  have hmode : e.mode.toNat = f.mode := by
    rw [UInt32.toNat_ofNat', Nat.mod_eq_of_lt (by have := hfile.mode; omega)]
  have he : e ∈ entries := (hlists.mem_iff e).mpr ⟨f, hf, hsize, hmode⟩
  refine ⟨fileInfo e, ⟨List.mem_map_of_mem he, Utf8.decode_encode name, hmode⟩, ?_⟩
  intro row' hrow' hname
  obtain ⟨e', he', rfl⟩ := List.mem_map.mp hrow'
  obtain ⟨f', hf', -⟩ := (hlists.mem_iff e').mp he'
  have htext : Utf8.encode (Utf8.decode e'.name) = e'.name :=
    Utf8.encode_decode_iff.mpr (hm _ _ hf').text
  have hsame : e'.name = e.name := htext.symm.trans (congrArg Utf8.encode hname)
  rw [List.inj_on_of_nodup_map hlists.nodup he' he hsame]

/-- One request was answered before another was sent: the moments of their operations, and
what the responses tell of these. -/
theorem moments (hperm : ∀ kind mode, host.permits kind mode = true)
    (hdoc : Documented cfg.rt cfg.tokenTtl times) (h : Run (SiteStep cfg host times) opened acts s)
    (hmore : Run (SiteStep cfg host times) s more t) {i j : ℕ} {q q' : HttpRequest}
    {response response' : HttpResponse} (hsent : .send i q ∈ acts)
    (hsettled : .settle i response ∈ acts) (hgood : ¬ BadGateway response)
    (hsent' : .send j q' ∈ more) (hsettled' : .settle j response' ∈ more)
    (hgood' : ¬ BadGateway response') :
    ∃ performed m between, Accounts cfg host (acts ++ more) t performed m ∧
      Between performed i j between ∧ ∃ m₀ m₁ m₂ m₃ op op' msg msg',
        Performs host m₀ op m₁ msg ∧ q.route.Asks cfg.rt op ∧ response = pageFor q.route msg ∧
        Run (Performing host) m₁ between m₂ ∧ AllPresentable host m₂ ∧
        Performs host m₂ op' m₃ msg' ∧ q'.route.Asks cfg.rt op' ∧
        response' = pageFor q'.route msg' := by
  obtain ⟨performed, m, hfirst⟩ := standing_of_run hperm hdoc h
  obtain ⟨performed', m', hstanding⟩ := hfirst.run_more hperm hdoc hmore
  obtain ⟨p, hp, hpi, rfl, hpage⟩ := hfirst.told h hsent hsettled hgood
  obtain ⟨l, hl, hlj, rfl, hpage'⟩ := hstanding.told (h.append hmore)
    (List.mem_append_right _ hsent') (List.mem_append_right _ hsettled') hgood'
  have hlater : l ∈ performed' := (List.mem_append.mp hl).resolve_left
    fun hearly => hfirst.index_new hmore hsent' l hearly hlj
  obtain ⟨before, between, rfl⟩ := List.append_of_mem hp
  obtain ⟨between', after, rfl⟩ := List.append_of_mem hlater
  have hall : before ++ p :: between ++ (between' ++ l :: after) =
      before ++ p :: ((between ++ between') ++ l :: after) := by simp
  rw [hall] at hstanding
  have hproper := hstanding.proper
  have hrun := hstanding.run
  rw [← List.cons_append, ← List.append_assoc] at hrun
  obtain ⟨m₂, m₃, hbefore, hperforms', -⟩ := hrun.split_cons
  obtain ⟨m₀, m₁, -, hperforms, hbetween⟩ := hbefore.split_cons
  have hasks : ∀ x ∈ [p, l], x.request.route.Asks cfg.rt x.operation := by
    intro x hx
    refine asks_of_operation (hproper x ?_).operation
    simp only [List.mem_cons, List.not_mem_nil, or_false] at hx
    simp only [List.mem_append, List.mem_cons]
    tauto
  have hpresentable : AllPresentable host m₂ := by
    refine run_presentable (fun x hx => hproper x ?_) hbefore
    rw [← List.cons_append, ← List.append_assoc]
    exact List.mem_append_left _ hx
  exact ⟨_, m', between ++ between', hstanding.accounts,
    ⟨before, p, l, after, rfl, hpi, hlj⟩, m₀, m₁, m₂, m₃, _, _, _, _, hperforms,
    hasks p (by simp), hpage, hbetween, hpresentable, hperforms', hasks l (by simp), hpage'⟩

end Runs

def sampleRouting : Routing where
  file path := decodeURIComponent (path.drop "/files/".toList.length)
  permissions path := decodeURIComponent ((path.drop "/files/".toList.length).take
    (path.length - "/files/".toList.length - "/permissions".toList.length))

theorem sampleRouting_documented : sampleRouting.Documented where
  file segment name _ hdecode _ _ _ := by
    change decodeURIComponent (("/files/".toList ++ segment).drop _) = _
    rwa [List.drop_left]
  permissions segment name _ hdecode _ _ _ := by
    change decodeURIComponent
      ((("/files/".toList ++ segment ++ "/permissions".toList).drop _).take _) = _
    have hlen : ("/files/".toList ++ segment ++ "/permissions".toList).length -
        "/files/".toList.length - "/permissions".toList.length = segment.length := by
      simp only [List.length_append]
      omega
    rwa [hlen, List.append_assoc, List.drop_left, List.take_left]

theorem bridgeRuntime_plainModes : PlainModes bridgeRuntime := by
  intro n hn
  change Nat.toDigits 10 ((n : ℚ).num.toNat) = _
  rw [Rat.num_natCast, Int.toNat_natCast]

def sampleSave : FileRoute := .permissions ['a'] (permissionsBody (0o600 : ℕ))

def sampleRows (mode : ℕ) : Listing := ⟨[⟨['a'], 2, mode⟩], 0⟩

def sampleFetched : HttpResponse := ⟨200, .attachment (contentDisposition ['a']) ⟨[1, 2], 0⟩⟩

def sampleSaving : List Act := exchange 1 sampleSave (okPage 0)

def sampleShowing : List Act := exchange 2 .list (filesPage (sampleRows 0o600))

def sampleFetching : List Act := exchange 3 (.download ['a']) sampleFetched

def sampleSaved : Server where
  files := AList.insert [0x61] { current := some ⟨[1, 2], 0o600⟩ } ∅

theorem sampleSave_handled (events : List Event) : handleFiles bridgeRuntime events sampleSave =
    .ofCall (chmodFile events ['a'] 0o600) okPage :=
  handleFiles_permissions (parseMode_permissionsBody bridgeRuntime_plainModes (by decide)) ..

theorem sampleUse_run : ∃ s₀ s₁ s₂ s₃ : Site,
    Run (SiteStep sampleConfig sampleHost {1000}) opened sampleActs s₀ ∧
      Run (SiteStep sampleConfig sampleHost {1000}) s₀ sampleSaving s₁ ∧
      Run (SiteStep sampleConfig sampleHost {1000}) s₁ sampleShowing s₂ ∧
      Run (SiteStep sampleConfig sampleHost {1000}) s₂ sampleFetching s₃ := by
  obtain ⟨s₀, hrun, hfront, hbackend, hjobs⟩ := sampleUpload_run
  have hsave : Receives (handleFiles bridgeRuntime [] sampleSave).written
      (plainRequest 5 Protocol.opReqChmod (Requests.chmodPayload [0x61] 0o600)) := by
    rw [sampleSave_handled]
    exact ⟨by decide +kernel, by decide +kernel, by decide +kernel⟩
  have hshow : Receives (handleFiles bridgeRuntime [] .list).written
      (plainRequest 5 Protocol.opReqList []) :=
    ⟨by decide +kernel, by decide +kernel, by decide +kernel⟩
  have hfetch : Receives (handleFiles bridgeRuntime [] (.download ['a'])).written
      (plainRequest 5 Protocol.opReqDownload (Requests.namePayload [0x61])) :=
    ⟨by decide +kernel, by decide +kernel, by decide +kernel⟩
  have hordinary : Ordinary sampleSaved (plainRequest 5 Protocol.opReqList []) :=
    ⟨rfl, by constructor <;> exact nofun, fun _ => by decide⟩
  have hsaved : respond sampleHost sampleStored
      (plainRequest 5 Protocol.opReqChmod (Requests.chmodPayload [0x61] 0o600)) =
        some (sampleSaved, frame Protocol.opRespOk 0 []) := rfl
  have hshown : respond sampleHost sampleSaved (plainRequest 5 Protocol.opReqList []) = some
      (sampleSaved, frame Protocol.opRespListData 0 (Listings.listBody [⟨[0x61], 2, 0o600⟩])) := rfl
  have hfetched : respond sampleHost sampleSaved
      (plainRequest 5 Protocol.opReqDownload (Requests.namePayload [0x61])) =
        some (sampleSaved, frame Protocol.opRespFileData 0 (fileBody [1, 2])) := rfl
  obtain ⟨s₁, hrun₁, hfront₁, hbackend₁, hjobs₁⟩ := exchange_run hfront hbackend
    (hjobs 1 (by decide)) hsave (plainRequest_ordinary (by decide) (by decide)) hsaved
    (show _ = some (okPage 0) by rw [sampleSave_handled]; rfl)
  obtain ⟨s₂, hrun₂, hfront₂, hbackend₂, hjobs₂⟩ := exchange_run hfront₁ hbackend₁
    ((hjobs₁ 2 (by decide)).trans (hjobs 2 (by decide))) hshow hordinary hshown
    (show _ = some (filesPage (sampleRows 0o600)) from rfl)
  obtain ⟨s₃, hrun₃, -, -, -⟩ := exchange_run hfront₂ hbackend₂
    ((hjobs₂ 3 (by decide)).trans ((hjobs₁ 3 (by decide)).trans (hjobs 3 (by decide)))) hfetch
    (plainRequest_ordinary (by decide) (by decide)) hfetched (show _ = some sampleFetched from rfl)
  exact ⟨s₀, s₁, s₂, s₃, hrun, hrun₁, hrun₂, hrun₃⟩

section Results
variable {cfg : Config} {host : Host} {times : Set ℚ} {routing : Routing} {acts more : List Act}
variable {s t : Site}

/-- A listing that the page shows is one of the files at some moment, and the controls of its
rows ask for them. -/
theorem rows_lead_back (hperm : ∀ kind mode, host.permits kind mode = true)
    (hdoc : Documented cfg.rt cfg.tokenTtl times) (hrouting : routing.Documented)
    (hplain : PlainModes cfg.rt) (h : Run (SiteStep cfg host times) opened acts s) :
    ∃ performed m, Accounts cfg host acts s performed m ∧
      ∀ i listing, .settle i (filesPage listing) ∈ acts → ∃ before p after,
        performed = before ++ p :: after ∧ p.index = i ∧
          Shows routing cfg.rt host before listing.files := by
  obtain ⟨performed, m, hstanding⟩ := standing_of_run hperm hdoc h
  refine ⟨performed, m, hstanding.accounts, fun i listing hsettled => ?_⟩
  obtain ⟨q, hsent, hbad | ⟨op, msg, hp, hpage⟩⟩ := hstanding.accounts.settled i _ hsettled
  · exact absurd hbad (not_badGateway (show 200 ≠ 502 by decide))
  · obtain ⟨before, after, rfl⟩ := List.append_of_mem hp
    obtain ⟨m₁, m₂, hbefore, hperforms, -⟩ := hstanding.run.split_cons
    refine ⟨before, _, after, rfl, rfl, ?_⟩
    obtain ⟨-, us, entries, hmsg, hfiles⟩ := filesPage_told hpage
    change Performs host m₁ op m₂ msg at hperforms
    rw [hmsg] at hperforms
    cases hperforms with
    | listed us hlists =>
      have hproper : ∀ p ∈ before, p.Proper cfg :=
        fun p hp => hstanding.proper p (List.mem_append_left _ hp)
      have hpresentable := run_presentable hproper hbefore
      obtain ⟨hnodup, hleads⟩ := rows_lead hrouting hplain hpresentable hlists
      exact ⟨m₁, entries, hbefore, hlists, hfiles, hfiles ▸ hnodup, hleads⟩

/-- The row of the uploaded file. -/
theorem rows_lead_back_saved : ∃ s performed m,
    Run (SiteStep sampleConfig sampleHost {1000}) opened
        (sampleActs ++ sampleSaving ++ sampleShowing) s ∧
      Accounts sampleConfig sampleHost (sampleActs ++ sampleSaving ++ sampleShowing) s performed m ∧
      ∃ before p after, performed = before ++ p :: after ∧ p.index = 2 ∧
        Shows sampleRouting bridgeRuntime sampleHost before (sampleRows 0o600).files := by
  obtain ⟨s₀, s₁, s₂, s₃, hrun, hrun₁, hrun₂, -⟩ := sampleUse_run
  have hall := (hrun.append hrun₁).append hrun₂
  obtain ⟨performed, m, haccounts, hrows⟩ := rows_lead_back (fun _ _ => rfl)
    bridgeRuntime_documented sampleRouting_documented bridgeRuntime_plainModes hall
  have hshown : .settle 2 (filesPage (sampleRows 0o600)) ∈
      sampleActs ++ sampleSaving ++ sampleShowing :=
    List.mem_append_right _ (.tail _ (.tail _ (.head _)))
  exact ⟨s₂, performed, m, hall, haccounts, hrows 2 _ hshown⟩

/-- A mode that was saved is the one that the page shows afterwards, unless a request that
deletes the file or changes its mode got in between. -/
theorem saved_mode_shown (hperm : ∀ kind mode, host.permits kind mode = true)
    (hdoc : Documented cfg.rt cfg.tokenTtl times) (hplain : PlainModes cfg.rt)
    (h : Run (SiteStep cfg host times) opened acts s)
    (hmore : Run (SiteStep cfg host times) s more t) {i j : ℕ} {name modeText : List Char}
    {q : HttpRequest} {listing : Listing} (hsaved : Saved acts i name modeText)
    (hsent : .send j q ∈ more) (hshown : .settle j (filesPage listing) ∈ more) :
    ∃ performed m between, Accounts cfg host (acts ++ more) t performed m ∧
      Between performed i j between ∧
      ((∀ p ∈ between, ¬ ChangesMode (Utf8.encode name) p.operation) →
        (∃! row, row ∈ listing.files ∧ row.name = name) ∧ ∀ row ∈ listing.files,
          row.name = name → formatMode row.mode = padStart 4 '0' modeText) := by
  obtain ⟨q₀, mode, us, hroute, hsubmit, hsent₀, hsettled₀⟩ := hsaved
  obtain ⟨performed, m, between, haccounts, hbetween, m₀, m₁, m₂, m₃, op, op', msg, msg',
    hperforms, hasks, hpage, hrun, hpresentable, hperforms', -, hpage'⟩ :=
    moments hperm hdoc h hmore hsent₀ hsettled₀ (not_badGateway (show 200 ≠ 502 by decide))
      hsent hshown (not_badGateway (show 200 ≠ 502 by decide))
  refine ⟨performed, m, between, haccounts, hbetween, fun hkeep => ?_⟩
  obtain ⟨n, rfl, hn, hformat⟩ := handleSubmit_some hsubmit
  rw [hroute] at hasks hpage
  obtain rfl := okPage_told hpage
  obtain ⟨-, us', entries, rfl, hfiles⟩ := filesPage_told hpage'
  have hchanged : ∃ f, m₁.lookup (Utf8.encode name) = some f ∧ f.mode = n := by
    cases hasks with
    | permissions name hparse =>
      rw [parseMode_permissionsBody hplain hn] at hparse
      cases hparse
      cases hperforms with
      | changed us hname hf =>
        refine ⟨_, Finmap.lookup_insert m₀, ?_⟩
        change (UInt32.ofNat n).toNat &&& 0o7777 = n
        rw [UInt32.toNat_ofNat', Nat.mod_eq_of_lt (by omega)]
        exact Nat.and_two_pow_sub_one_of_lt_two_pow (show n < 2 ^ 12 by omega)
  obtain ⟨f, hf, rfl⟩ := hchanged
  obtain ⟨g, hg, hgmode⟩ := run_mode hrun hkeep hf
  have hlists : Lists (fun n => m₂.lookup n) entries := by
    cases hperforms' with
    | listed us hlists => exact hlists
  obtain ⟨row, hrow, honly⟩ := row_of_lookup hpresentable hlists hg
  rw [hfiles]
  refine ⟨⟨row, ⟨hrow.1, hrow.2.1⟩, fun row' hrow' => honly row' hrow'.1 hrow'.2⟩,
    fun row' hmem hname => ?_⟩
  rw [honly row' hmem hname, hrow.2.2, hgmode, hformat]

theorem sampleSaved_saved : Saved (sampleActs ++ sampleSaving) 1 ['a'] "0600".toList :=
  ⟨sampleAsk sampleSave, (0o600 : ℕ), 0, rfl, by decide, List.mem_append_right _ (.head _),
    List.mem_append_right _ (.tail _ (.tail _ (.head _)))⟩

theorem saved_mode_shown_at_once : ∃ s t performed m between,
    Run (SiteStep sampleConfig sampleHost {1000}) opened (sampleActs ++ sampleSaving) s ∧
      Run (SiteStep sampleConfig sampleHost {1000}) s sampleShowing t ∧
      Accounts sampleConfig sampleHost (sampleActs ++ sampleSaving ++ sampleShowing) t performed m ∧
      Between performed 1 2 between ∧
      ((∀ p ∈ between, ¬ ChangesMode [0x61] p.operation) → formatMode 0o600 = "0600".toList) := by
  obtain ⟨s₀, s₁, s₂, s₃, hrun, hrun₁, hrun₂, -⟩ := sampleUse_run
  obtain ⟨performed, m, between, haccounts, hbetween, hkept⟩ := saved_mode_shown
    (fun _ _ => rfl) bridgeRuntime_documented bridgeRuntime_plainModes (hrun.append hrun₁) hrun₂
    sampleSaved_saved (.head _) (.tail _ (.tail _ (.head _)))
  refine ⟨s₁, s₂, performed, m, between, hrun.append hrun₁, hrun₂, haccounts, hbetween, fun h => ?_⟩
  exact (hkept h).2 ⟨['a'], 2, 0o600⟩ (.head _) rfl

/-- What was uploaded is downloaded again, under its name, unless a request that deletes the
file or uploads it got in between. -/
theorem stored_content_returns (hperm : ∀ kind mode, host.permits kind mode = true)
    (hdoc : Documented cfg.rt cfg.tokenTtl times)
    (h : Run (SiteStep cfg host times) opened acts s)
    (hmore : Run (SiteStep cfg host times) s more t) {i j : ℕ} {name : List Char} {buffer : Bytes}
    {q : HttpRequest} {response : HttpResponse} (hstored : Stored acts i name buffer)
    (hroute : q.route = .files (.download name)) (hsent : .send j q ∈ more)
    (hfetched : .settle j response ∈ more) (hgood : ¬ BadGateway response) :
    ∃ performed m between, Accounts cfg host (acts ++ more) t performed m ∧
      Between performed i j between ∧
      ((∀ p ∈ between, ¬ ChangesContents (Utf8.encode name) p.operation) →
        ∃ us disposition, response = ⟨200, .attachment disposition ⟨buffer, us⟩⟩ ∧
          SavedUnder disposition name) := by
  obtain ⟨q₀, result, hroute₀, hsent₀, hsettled₀⟩ := hstored
  obtain ⟨performed, m, between, haccounts, hbetween, m₀, m₁, m₂, m₃, op, op', msg, msg',
    hperforms, hasks, hpage, hrun, -, hperforms', hasks', hpage'⟩ :=
    moments hperm hdoc h hmore hsent₀ hsettled₀ (not_badGateway (show 201 ≠ 502 by decide))
      hsent hfetched hgood
  refine ⟨performed, m, between, haccounts, hbetween, fun hkeep => ?_⟩
  rw [hroute₀] at hasks hpage
  rw [hroute] at hasks' hpage'
  obtain ⟨us, networkUs, writeUs, syncUs, rfl⟩ := uploadedPage_told hpage
  have hstored : ValidName host.root pathMax (Utf8.encode name) ∧
      ∃ f, m₁.lookup (Utf8.encode name) = some f ∧ f.bytes = buffer := by
    cases hasks with
    | upload name buffer =>
      cases hperforms with
      | created us networkUs writeUs syncUs hname hf =>
        exact ⟨hname, _, Finmap.lookup_insert m₀, rfl⟩
      | replaced us networkUs writeUs syncUs hname hf =>
        exact ⟨hname, _, Finmap.lookup_insert m₀, rfl⟩
  obtain ⟨hvalid, f, hf, rfl⟩ := hstored
  obtain ⟨g, hg, hbytes⟩ := run_contents hrun hkeep hf
  have hanswer : ∃ us, msg' = .file us f.bytes := by
    cases hasks' with
    | download name =>
      cases hperforms' with
      | forbidden hop hname => exact absurd hvalid hname
      | downloaded us hname hf' =>
        rw [hg] at hf'
        cases hf'
        exact ⟨us, congrArg (Message.file us) hbytes⟩
      | notFound hop hname hf' =>
        rcases hop with hop | hop | ⟨mode, hop⟩
        · cases hop
          rw [hg] at hf'
          cases hf'
        · cases hop
        · cases hop
  obtain ⟨us', rfl⟩ := hanswer
  exact ⟨us', contentDisposition name, hpage', contentDisposition_saved name⟩

theorem sampleActs_stored : Stored sampleActs 0 ['a'] [1, 2] :=
  ⟨sampleAsk sampleUpload, ⟨0, some ⟨0, 0, 0⟩⟩, rfl, .tail _ (.head _),
    .tail _ (.tail _ (.tail _ (.head _)))⟩

/-- The mode was changed in between. -/
theorem stored_content_returns_changed : ∃ s t performed m between,
    Run (SiteStep sampleConfig sampleHost {1000}) opened sampleActs s ∧
      Run (SiteStep sampleConfig sampleHost {1000}) s
        (sampleSaving ++ sampleShowing ++ sampleFetching) t ∧
      Accounts sampleConfig sampleHost
        (sampleActs ++ (sampleSaving ++ sampleShowing ++ sampleFetching)) t performed m ∧
      Between performed 0 3 between ∧
      ((∀ p ∈ between, ¬ ChangesContents [0x61] p.operation) →
        ∃ us disposition, sampleFetched = ⟨200, .attachment disposition ⟨[1, 2], us⟩⟩ ∧
          SavedUnder disposition ['a']) := by
  obtain ⟨s₀, s₁, s₂, s₃, hrun, hrun₁, hrun₂, hrun₃⟩ := sampleUse_run
  have hmore := (hrun₁.append hrun₂).append hrun₃
  obtain ⟨performed, m, between, haccounts, hbetween, hkept⟩ := stored_content_returns
    (fun _ _ => rfl) bridgeRuntime_documented hrun hmore sampleActs_stored rfl
    (List.mem_append_right _ (.head _)) (List.mem_append_right _ (.tail _ (.tail _ (.head _))))
    (not_badGateway (show 200 ≠ 502 by decide))
  exact ⟨s₀, s₃, performed, m, between, hrun, hmore, haccounts, hbetween, hkept⟩

end Results

end NervFS.Frontend
