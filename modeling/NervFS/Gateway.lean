import NervFS.BridgeNames
import NervFS.AdminTokens
import NervFS.Exchanges
import NervFS.Lib.Numerals
import NervFS.Lib.Percent

/-!
The HTTP side of the bridge. A handler gets a request as the framework has taken it apart:
the path's parameters decoded, the JSON body parsed, the part of a form with its name. It
is described by the bytes that it writes to the server and by its response when the socket
then emits a given list of events. A request that asks the server for something writes one
frame for it, and its response is made from the server's; every other one writes nothing.
-/
namespace NervFS.Gateway

open Calls Protocol FileOps Handlers Operations Kernel Responses Listings Bridge BridgeFrames
open BridgeReader BridgeReplies Replies Catalog AdminTokens Exchanges

/-- What the process is started with. -/
structure Config where
  rt : Runtime
  adminPassword : Str
  authSecret : Bytes
  tokenTtl : ℚ

def comma : UInt16 := 0x2C

mutual

/-- `String(value)`; `none` is the `TypeError` of an object that hides its `toString`. -/
def stringOf (rt : Runtime) : Json → Option Str
  | .null => some (literal "null")
  | .bool value => some (literal (if value then "true" else "false"))
  | .number value => some (Utf16.encode (rt.numberText value))
  | .infinite negative => some (literal (if negative then "-Infinity" else "Infinity"))
  | .string value => some value
  | .array items => (itemStrings rt items).map fun strings => [comma].intercalate strings
  | .object fields =>
    if fields.any fun field => field.1 = literal "toString" then none
    else some (literal "[object Object]")

def itemStrings (rt : Runtime) : List Json → Option (List Str)
  | [] => some []
  | .null :: items => (itemStrings rt items).map ([] :: ·)
  | item :: items =>
    match stringOf rt item, itemStrings rt items with
    | some string, some strings => some (string :: strings)
    | _, _ => none

end

/-- `String(value)` of what may be undefined. -/
def stringOfValue (rt : Runtime) : Option Json → Option Str
  | none => some (literal "undefined")
  | some value => stringOf rt value

def isTruthy : Option Json → Bool
  | none => false
  | some .null => false
  | some (.bool value) => value
  | some (.number value) => value ≠ 0
  | some (.string value) => value ≠ []
  | some _ => true

/-- `String(value || '')`. -/
def stringOrEmpty (rt : Runtime) (value : Option Json) : Option Str :=
  if isTruthy value then stringOfValue rt value else some []

def isUnreserved (c : Char) : Bool := c.isAlphanum || "-_.!~*'()".toList.contains c

def encodeURIComponent (text : List Char) : List Char := Percent.encode isUnreserved text

def safeFilename (filename : List Char) : List Char :=
  Percent.escapeAll (fun c => c == '*')
    (Percent.escapeAll (fun c => "'()".toList.contains c) (encodeURIComponent filename))

def contentDisposition (filename : List Char) : List Char :=
  let safeFilename := safeFilename filename
  "attachment; filename=\"".toList ++ (safeFilename ++
    ("\"; filename*=UTF-8''".toList ++ safeFilename))

/-- The characters that the value of a header may have. -/
def isHeaderChar (c : Char) : Bool :=
  c = '\t' || decide (0x20 ≤ c.toNat ∧ c.toNat ≤ 0x7E) ||
    decide (0x80 ≤ c.toNat ∧ c.toNat ≤ 0xFF)

/-- The routes behind `requireAdmin`. -/
inductive FileRoute
  | list
  | upload (file : Option (List Char × Bytes))
  | download (name : List Char)
  | delete (name : List Char)
  | permissions (name : List Char) (body : Json)

inductive Route
  | health
  | login (body : Json)
  | files (route : FileRoute)

structure HttpRequest where
  route : Route
  authorization : Str := []
  /-- `String(req.query.token || '')` -/
  query : Str := []
  now : ℚ
  /-- The limiter has counted too many attempts. -/
  limited : Bool := false

/-- The body of a response, and the headers that a handler sets for it. -/
inductive Page
  /-- `none` is a message of the runtime -/
  | error (message : Option (List Char))
  | ok (serverUs : Option UInt64)
  | token (token : Str)
  | files (listing : Listing)
  | uploaded (result : Uploaded)
  | attachment (disposition : List Char) (file : Downloaded)
  /-- the page of the framework for an exception that no handler catches -/
  | exception

structure HttpResponse where
  status : ℕ
  page : Page

/-- What a handler writes to the server, and its response; `none` while it waits. -/
structure Outcome where
  written : Bytes := []
  response : Option HttpResponse

def Outcome.reply (response : HttpResponse) : Outcome := { response := some response }

def statusForError : Failure → ℕ
  | .error _ (some code) => if code ∈ [400, 403, 404, 409, 500] then code else 502
  | _ => 502

def messageOf : Failure → Option (List Char)
  | .error message _ => some message
  | _ => none

def sendError (e : Failure) : HttpResponse := ⟨statusForError e, .error (messageOf e)⟩

/-- The response to an exception of the runtime in a handler. -/
def runtimeError : HttpResponse := ⟨502, .error none⟩

section Handlers
variable {α : Type}

/-- The `try` and the `catch` of a handler around one call. -/
def conclude (page : α → HttpResponse) : Js α → HttpResponse
  | .ok a => page a
  | .error e => sendError e

def Outcome.ofCall (c : Call α) (page : α → HttpResponse) : Outcome :=
  ⟨c.written, c.settled.map (conclude page)⟩

end Handlers

def unauthorized : HttpResponse := ⟨401, .error (some "Admin login required".toList)⟩

def login (cfg : Config) (q : HttpRequest) (body : Json) : HttpResponse :=
  if q.limited then
    ⟨429, .error (some "Too many failed login attempts. Try again in 15 minutes.".toList)⟩
  else
    match stringOrEmpty cfg.rt (body.property (literal "password")) with
    | none => ⟨500, .exception⟩
    | some password =>
      if !safeCompare password cfg.adminPassword then
        ⟨401, .error (some "Invalid admin password".toList)⟩
      else ⟨200, .token (createToken cfg.rt cfg.authSecret cfg.tokenTtl q.now)⟩

/-- The mode that a body asks for: `none` is a `TypeError`, and `some none` is turned down. -/
def parseMode (rt : Runtime) (body : Json) : Option (Option ℕ) :=
  match stringOfValue rt (body.property (literal "mode")) with
  | none => none
  | some string =>
    match Numerals.parseInt 10 (Utf16.decode string) with
    | none => some none
    | some mode => if mode < 0 ∨ 0o7777 < mode then some none else some (some mode.toNat)

def filesPage (listing : Listing) : HttpResponse := ⟨200, .files listing⟩

def uploadedPage (result : Uploaded) : HttpResponse := ⟨201, .uploaded result⟩

/-- A header with a character that it may not have is an exception. -/
def downloadedPage (filename : List Char) (file : Downloaded) : HttpResponse :=
  if (contentDisposition filename).all isHeaderChar then
    ⟨200, .attachment (contentDisposition filename) file⟩
  else runtimeError

def okPage (serverUs : UInt64) : HttpResponse := ⟨200, .ok (some serverUs)⟩

def fileRequired : HttpResponse :=
  ⟨400, .error (some "multipart field \"file\" is required".toList)⟩

def invalidMode : HttpResponse :=
  ⟨400, .error (some "mode must be a numeric permission value".toList)⟩

def handlePermissions (rt : Runtime) (events : List Event) (name : List Char) (body : Json) :
    Outcome :=
  match parseMode rt body with
  | none => .reply runtimeError
  | some none => .reply invalidMode
  | some (some mode) => .ofCall (chmodFile events name mode) okPage

def handleFiles (rt : Runtime) (events : List Event) : FileRoute → Outcome
  | .list => .ofCall (listFiles events) filesPage
  | .upload none => .reply fileRequired
  | .upload (some (originalname, buffer)) =>
    .ofCall (uploadFile events originalname buffer) uploadedPage
  | .download name => .ofCall (downloadFile events name) (downloadedPage name)
  | .delete name => .ofCall (deleteFile events name) okPage
  | .permissions name body => handlePermissions rt events name body

def handle (cfg : Config) (q : HttpRequest) (events : List Event) : Outcome :=
  match q.route with
  | .health => .ofCall (listFiles events) fun _ => ⟨200, .ok none⟩
  | .login body => .reply (login cfg q body)
  | .files route =>
    if requireAdmin cfg.rt cfg.authSecret q.now q.authorization q.query then
      handleFiles cfg.rt events route
    else .reply unauthorized

def FileRoute.operation (rt : Runtime) : FileRoute → Option Operation
  | .list => some .list
  | .upload none => none
  | .upload (some (originalname, buffer)) => some (.upload (Utf8.encode originalname) buffer)
  | .download name => some (.download (Utf8.encode name))
  | .delete name => some (.delete (Utf8.encode name))
  | .permissions name body =>
    (parseMode rt body).join.map fun mode => .chmod (Utf8.encode name) (UInt32.ofNat mode)

def HttpRequest.operation (cfg : Config) (q : HttpRequest) : Option Operation :=
  match q.route with
  | .health => some .list
  | .login _ => none
  | .files route =>
    if requireAdmin cfg.rt cfg.authSecret q.now q.authorization q.query then
      route.operation cfg.rt
    else none

/-- What a route asks for, once the request has got there. -/
inductive Route.Asks (rt : Runtime) : Route → Operation → Prop
  | health : Asks rt .health .list
  | list : Asks rt (.files .list) .list
  | upload (originalname : List Char) (buffer : Bytes) :
    Asks rt (.files (.upload (some (originalname, buffer))))
      (.upload (Utf8.encode originalname) buffer)
  | download (name : List Char) : Asks rt (.files (.download name)) (.download (Utf8.encode name))
  | delete (name : List Char) : Asks rt (.files (.delete name)) (.delete (Utf8.encode name))
  | permissions (name : List Char) {body : Json} {mode : ℕ}
    (h : parseMode rt body = some (some mode)) :
    Asks rt (.files (.permissions name body)) (.chmod (Utf8.encode name) (UInt32.ofNat mode))

/-- The response that is made of the one of the server. -/
def respondFor (route : Route) (resp : Response) : HttpResponse :=
  match route with
  | .health => conclude (fun _ => ⟨200, .ok none⟩) (listResult resp)
  | .login _ => runtimeError
  | .files .list => conclude filesPage (listResult resp)
  | .files (.upload _) => conclude uploadedPage (uploadResult resp)
  | .files (.download name) => conclude (downloadedPage name) (downloadResult resp)
  | .files (.delete _) => conclude okPage (okResult resp)
  | .files (.permissions _ _) => conclude okPage (okResult resp)

/-- The page for an answer of the server. -/
def pageFor : Route → Message → HttpResponse
  | _, .error errCode msg => sendError (rejection errCode msg)
  | .health, .listing _ _ => ⟨200, .ok none⟩
  | .files .list, .listing us entries => filesPage ⟨entries.map fileInfo, us⟩
  | .files (.upload _), .metrics us networkUs writeUs syncUs =>
    uploadedPage ⟨us, some ⟨networkUs.toNat, writeUs.toNat, syncUs.toNat⟩⟩
  | .files (.download name), .file us content =>
    ⟨200, .attachment (contentDisposition name) ⟨content, us⟩⟩
  | .files (.delete _), .ok us => okPage us
  | .files (.permissions _ _), .ok us => okPage us
  | _, _ => runtimeError

/-- The unreserved characters but those that are escaped for a header. -/
def isAttrChar (c : Char) : Bool := c.isAlphanum || "-_.!~".toList.contains c

theorem hexDigit_isAlphanum {n : ℕ} (h : n < 16) : (Percent.hexDigit n).isAlphanum = true := by
  revert n
  decide

theorem isAttrChar_eq (c : Char) :
    ((isUnreserved c && !("'()".toList.contains c)) && !(c == '*')) = isAttrChar c := by
  by_cases hc : c ∈ "'()*".toList
  · have hall : ("'()*".toList.all fun d => ((isUnreserved d && !("'()".toList.contains d)) &&
        !(d == '*')) == isAttrChar d) = true := by decide
    exact eq_of_beq (List.all_eq_true.mp hall c hc)
  · unfold isUnreserved isAttrChar
    simp at hc ⊢
    grind

theorem safeFilename_eq (filename : List Char) :
    safeFilename filename = Percent.encode isAttrChar filename := by
  have hquotes : ∀ c ∈ "'()".toList, c.toNat < 0x80 := by
    have hall : ("'()".toList.all fun c => c.toNat < 0x80) = true := by decide
    simpa only [decide_eq_true_eq] using List.all_eq_true.mp hall
  unfold safeFilename encodeURIComponent
  rw [Percent.escapeAll_encode, Percent.escapeAll_encode]
  · simp only [isAttrChar_eq]
  · intro c hc
    rw [beq_iff_eq.mp hc]
    decide
  · decide
  · exact fun c hc => hquotes c (List.contains_iff_mem.mp hc)
  · decide

theorem mem_safeFilename {c : Char} {filename : List Char} (h : c ∈ safeFilename filename) :
    isAttrChar c = true ∨ c = '%' := by
  rw [safeFilename_eq] at h
  rcases Percent.mem_encode h with hc | hc | ⟨n, hn, rfl⟩
  · exact Or.inl hc
  · exact Or.inr hc
  · left
    unfold isAttrChar
    rw [hexDigit_isAlphanum hn]
    rfl

theorem isHeaderChar_of_isAlphanum {c : Char} (h : c.isAlphanum = true) :
    isHeaderChar c = true := by
  have hrange : 0x20 ≤ c.toNat ∧ c.toNat ≤ 0x7E := by
    have hcases : c.isAlphanum = (decide (c.val ≥ 'A'.val ∧ c.val ≤ 'Z'.val) ||
        (c.val ≥ 'a'.val && c.val ≤ 'z'.val) || (c.val ≥ '0'.val && c.val ≤ '9'.val)) := rfl
    have hvalue : c.toNat = c.val.toNat := rfl
    simp only [hcases, Bool.or_eq_true, Bool.and_eq_true, decide_eq_true_eq, ge_iff_le,
      UInt32.le_iff_toNat_le] at h
    simp at h
    omega
  unfold isHeaderChar
  rw [decide_eq_true hrange, Bool.or_true, Bool.true_or]

theorem isHeaderChar_of_mem {c : Char} {filename : List Char} (h : c ∈ safeFilename filename) :
    isHeaderChar c = true := by
  have hmarks : ("-_.!~".toList.all isHeaderChar) = true := by decide
  rcases mem_safeFilename h with hc | rfl
  · unfold isAttrChar at hc
    rcases (Bool.or_eq_true ..).mp hc with hc | hc
    · exact isHeaderChar_of_isAlphanum hc
    · exact List.all_eq_true.mp hmarks c (List.contains_iff_mem.mp hc)
  · decide

/-- The header for a file is one that may be sent, whatever the name is. -/
theorem contentDisposition_valid (filename : List Char) :
    (contentDisposition filename).all isHeaderChar = true := by
  have hfirst : ("attachment; filename=\"".toList.all isHeaderChar) = true := by decide
  have hsecond : ("\"; filename*=UTF-8''".toList.all isHeaderChar) = true := by decide
  rw [List.all_eq_true]
  intro c hc
  rcases List.mem_append.mp hc with hc | hc
  · exact List.all_eq_true.mp hfirst c hc
  · rcases List.mem_append.mp hc with hc | hc
    · exact isHeaderChar_of_mem hc
    · rcases List.mem_append.mp hc with hc | hc
      · exact List.all_eq_true.mp hsecond c hc
      · exact isHeaderChar_of_mem hc

theorem downloadedPage_eq (filename : List Char) (file : Downloaded) :
    downloadedPage filename file = ⟨200, .attachment (contentDisposition filename) file⟩ :=
  if_pos (contentDisposition_valid filename)

section Calls
variable {cfg : Config} {q : HttpRequest} {op : Operation}

theorem list_short : ¬ TooLong .list := by simp [TooLong, nameOf, payloadOf]

theorem listFiles_sends (events : List Event) : Sends (listFiles events) .list :=
  sends_request .list events listResult (by decide)

theorem not_tooLong_name (h : ¬ TooLong op) : (nameOf op).length < 65536 := by
  unfold TooLong at h
  omega

/-- The mode of a request is one that the field on the wire takes as it is. -/
theorem parseMode_toNat {rt : Runtime} {body : Json} {mode : ℕ}
    (h : parseMode rt body = some (some mode)) : mode ≤ 0o7777 ∧
      (UInt32.ofNat mode).toNat = mode := by
  unfold parseMode at h
  split at h
  · cases h
  · split at h
    · cases h
    · split at h
      · cases h
      · have hmode := Option.some.inj (Option.some.inj h)
        have hle : mode ≤ 0o7777 := by omega
        exact ⟨hle, by rw [UInt32.toNat_ofNat', Nat.mod_eq_of_lt (by omega)]⟩

/-- A handler around a call that is not too long sends it, and its response comes from the
one of the server. -/
theorem ofCall_sends {α : Type} {events : List Event} {c : Call α} {result : Response → Js α}
    (page : α → HttpResponse) (hsends : Sends c op) (hlong : ¬ TooLong op)
    (hsettled : c.settled = (readResponse events).map fun resp => resp >>= result) :
    ServedAs (Outcome.ofCall c page).written op ∧ (Outcome.ofCall c page).response =
      (readResponse events).map (conclude fun resp => conclude page (result resp)) := by
  refine ⟨hsends.frame hlong, ?_⟩
  change c.settled.map (conclude page) = _
  rw [hsettled, Option.map_map]
  congr 1
  funext r
  cases r <;> rfl

theorem handleFiles_permissions {rt : Runtime} {body : Json} {mode : ℕ}
    (h : parseMode rt body = some (some mode)) (events : List Event) (name : List Char) :
    handleFiles rt events (.permissions name body) =
      .ofCall (chmodFile events name mode) okPage := by
  change handlePermissions rt events name body = _
  unfold handlePermissions
  rw [h]

theorem handleFiles_sends {rt : Runtime} {route : FileRoute} (h : route.operation rt = some op)
    (hlong : ¬ TooLong op) (events : List Event) :
    ServedAs (handleFiles rt events route).written op ∧
      (handleFiles rt events route).response =
        (readResponse events).map (conclude (respondFor (.files route))) := by
  have hname := not_tooLong_name hlong
  cases route with
  | list =>
    cases h
    exact ofCall_sends filesPage (listFiles_sends events) hlong (listFiles_settled events)
  | upload file =>
    cases file with
    | none => cases h
    | some file =>
      cases h
      exact ofCall_sends uploadedPage (uploadFile_sends events file.1 file.2) hlong
        (uploadFile_settled events hlong)
  | download name =>
    cases h
    exact ofCall_sends (downloadedPage name) (bridge_frames events name [] 0).2.1 hlong
      (downloadFile_settled events hname)
  | delete name =>
    cases h
    exact ofCall_sends okPage (bridge_frames events name [] 0).2.2.1 hlong
      (deleteFile_settled events hname)
  | permissions name body =>
    obtain ⟨mode, hmode, rfl⟩ := Option.map_eq_some_iff.mp h
    have hparse := Option.join_eq_some_iff.mp hmode
    have hsends := chmodFile_sends events name (UInt32.ofNat mode)
    have hsettled := @chmodFile_settled events name (UInt32.ofNat mode) hname
    rw [(parseMode_toNat hparse).2] at hsends hsettled
    rw [handleFiles_permissions hparse]
    exact ofCall_sends okPage hsends hlong hsettled

/-- A request for something that the server can be asked for is one frame for it. -/
theorem handle_sends (h : q.operation cfg = some op) (hlong : ¬ TooLong op)
    (events : List Event) : ServedAs (handle cfg q events).written op ∧
      (handle cfg q events).response =
        (readResponse events).map (conclude (respondFor q.route)) := by
  unfold HttpRequest.operation at h
  unfold handle
  cases hroute : q.route with
  | health =>
    rw [hroute] at h
    cases h
    exact ofCall_sends _ (listFiles_sends events) hlong (listFiles_settled events)
  | login body =>
    rw [hroute] at h
    cases h
  | files route =>
    simp only [hroute] at h ⊢
    by_cases hadmin : requireAdmin cfg.rt cfg.authSecret q.now q.authorization q.query = true
    · rw [if_pos hadmin] at h ⊢
      exact handleFiles_sends h hlong events
    · rw [if_neg hadmin] at h
      cases h

theorem statusForError_ne (e : Failure) : statusForError e ≠ 401 := by
  unfold statusForError
  split
  · split
    · rename_i hmem
      rintro rfl
      exact absurd hmem (by decide)
    · decide
  · decide

/-- A call that is too long is turned down before anything is written. -/
theorem ofCall_alone {α : Type} {c : Call α} (page : α → HttpResponse) (hsends : Sends c op)
    (hlong : TooLong op) :
    ∃ status message, Outcome.ofCall c page = .reply ⟨status, .error message⟩ ∧ status ≠ 401 := by
  obtain ⟨hwritten, e, hsettled⟩ := hsends.throws_iff.mpr hlong
  refine ⟨statusForError e, messageOf e, ?_, statusForError_ne e⟩
  unfold Outcome.ofCall
  rw [hwritten, hsettled]
  rfl

theorem handleFiles_alone {rt : Runtime} {route : FileRoute}
    (h : ∀ op, route.operation rt = some op → TooLong op) (events : List Event) :
    ∃ status message,
      handleFiles rt events route = .reply ⟨status, .error message⟩ ∧ status ≠ 401 := by
  cases route with
  | list => exact absurd (h .list rfl) list_short
  | upload file =>
    cases file with
    | none => exact ⟨400, _, rfl, by decide⟩
    | some file => exact ofCall_alone _ (uploadFile_sends events file.1 file.2) (h _ rfl)
  | download name => exact ofCall_alone _ (bridge_frames events name [] 0).2.1 (h _ rfl)
  | delete name => exact ofCall_alone _ (bridge_frames events name [] 0).2.2.1 (h _ rfl)
  | permissions name body =>
    cases hparse : parseMode rt body with
    | none =>
      refine ⟨502, none, ?_, by decide⟩
      change handlePermissions rt events name body = _
      unfold handlePermissions
      rw [hparse]
      rfl
    | some parsed =>
      cases parsed with
      | none =>
        refine ⟨400, some "mode must be a numeric permission value".toList, ?_, by decide⟩
        change handlePermissions rt events name body = _
        unfold handlePermissions
        rw [hparse]
        rfl
      | some mode =>
        have hsends := chmodFile_sends events name (UInt32.ofNat mode)
        rw [(parseMode_toNat hparse).2] at hsends
        have hop : (FileRoute.permissions name body).operation rt =
            some (.chmod (Utf8.encode name) (UInt32.ofNat mode)) := by
          change (parseMode rt body).join.map _ = _
          rw [hparse]
          rfl
        rw [handleFiles_permissions hparse]
        exact ofCall_alone okPage hsends (h _ hop)

/-- A request is sent when it asks for something that fits a frame, and else answered at
once. -/
theorem handle_cases (cfg : Config) (q : HttpRequest) (events : List Event) :
    (∃ op, q.operation cfg = some op ∧ ¬ TooLong op) ∨
      (∃ body, q.route = .login body ∧ handle cfg q events = .reply (login cfg q body)) ∨
      (∃ route, q.route = .files route ∧
        requireAdmin cfg.rt cfg.authSecret q.now q.authorization q.query = false ∧
        handle cfg q events = .reply unauthorized) ∨
      ∃ route, q.route = .files route ∧
        requireAdmin cfg.rt cfg.authSecret q.now q.authorization q.query = true ∧
        (∀ op, q.operation cfg = some op → TooLong op) ∧
        ∃ status message, handle cfg q events = .reply ⟨status, .error message⟩ ∧ status ≠ 401 := by
  unfold HttpRequest.operation handle
  cases hroute : q.route with
  | health => exact Or.inl ⟨.list, rfl, list_short⟩
  | login body => exact Or.inr (Or.inl ⟨body, rfl, rfl⟩)
  | files route =>
    dsimp only
    cases hadmin : requireAdmin cfg.rt cfg.authSecret q.now q.authorization q.query with
    | false => exact Or.inr (Or.inr (Or.inl ⟨route, rfl, rfl, rfl⟩))
    | true =>
      rw [if_pos rfl, if_pos rfl]
      by_cases h : ∀ op, route.operation cfg.rt = some op → TooLong op
      · exact Or.inr (Or.inr (Or.inr ⟨route, rfl, rfl, h, handleFiles_alone h events⟩))
      · obtain ⟨op, hop⟩ := not_forall.mp h
        exact Or.inl ⟨op, Classical.not_imp.mp hop⟩

theorem operation_of_written {events : List Event} (h : (handle cfg q events).written ≠ []) :
    ∃ op, q.operation cfg = some op ∧ ¬ TooLong op := by
  rcases handle_cases cfg q events with hop | ⟨body, -, hreply⟩ | ⟨route, -, -, hreply⟩ |
    ⟨route, -, -, -, status, message, hreply, -⟩
  · exact hop
  · rw [hreply] at h
    exact absurd rfl h
  · rw [hreply] at h
    exact absurd rfl h
  · rw [hreply] at h
    exact absurd rfl h

end Calls

section Pages
variable {host : Host} {m m' : Catalog.FileMap} {op : Operation} {msg : Message}

theorem respondFor_error (route : Route) (errCode : UInt16) {text : Bytes}
    (hlen : text.length < 65536) (hroute : ∀ body, route ≠ .login body) :
    respondFor route (received opRespErr 0 (errorBody errCode text)) =
      sendError (rejection errCode text) := by
  generalize hresp : received opRespErr 0 (errorBody errCode text) = resp
  have hthrow : throwIfError resp.header resp.body = .error (rejection errCode text) := by
    rw [← hresp]
    exact throwIfError_error errCode rfl hlen
  have hlist : listResult resp = .error (rejection errCode text) := by
    unfold listResult
    rw [hthrow]
    rfl
  have hupload : uploadResult resp = .error (rejection errCode text) := by
    unfold uploadResult
    rw [hthrow]
    rfl
  have hdownload : downloadResult resp = .error (rejection errCode text) := by
    unfold downloadResult
    rw [hthrow]
    rfl
  have hok : okResult resp = .error (rejection errCode text) := by
    unfold okResult
    rw [hthrow]
    rfl
  cases route with
  | health => exact congrArg (conclude fun _ => ⟨200, .ok none⟩) hlist
  | login body => exact absurd rfl (hroute body)
  | files route =>
    cases route with
    | list => exact congrArg (conclude filesPage) hlist
    | upload file => exact congrArg (conclude uploadedPage) hupload
    | download name => exact congrArg (conclude (downloadedPage name)) hdownload
    | delete name => exact congrArg (conclude okPage) hok
    | permissions name body => exact congrArg (conclude okPage) hok

theorem asks_of_operation {cfg : Config} {q : HttpRequest} (h : q.operation cfg = some op) :
    q.route.Asks cfg.rt op := by
  unfold HttpRequest.operation at h
  cases hroute : q.route with
  | health =>
    rw [hroute] at h
    cases h
    exact .health
  | login body =>
    rw [hroute] at h
    cases h
  | files route =>
    simp only [hroute] at h
    obtain ⟨-, hop⟩ := Option.ite_none_right_eq_some.mp h
    cases route with
    | list =>
      cases hop
      exact .list
    | upload file =>
      cases file with
      | none => cases hop
      | some file =>
        cases hop
        exact .upload file.1 file.2
    | download name =>
      cases hop
      exact .download name
    | delete name =>
      cases hop
      exact .delete name
    | permissions name body =>
      obtain ⟨mode, hmode, rfl⟩ := Option.map_eq_some_iff.mp hop
      exact .permissions name (Option.join_eq_some_iff.mp hmode)

theorem respondFor_frame {rt : Runtime} {route : Route} (hroute : route.Asks rt op)
    (hp : Performs host m op m' msg) (hread : Readable msg) :
    respondFor route (received msg.opcode msg.elapsedUs msg.body) = pageFor route msg := by
  have hlogin : ∀ body, route ≠ .login body := by
    rintro body rfl
    cases hroute
  have herror : ∀ {errCode : UInt16} {text : Bytes}, text.length < 65536 →
      respondFor route (received opRespErr 0 (errorBody errCode text)) =
        pageFor route (.error errCode text) := by
    intro errCode text hlen
    rw [respondFor_error route errCode hlen hlogin]
    unfold pageFor
    cases route <;> rfl
  cases hp with
  | forbidden hop hname => exact herror (by decide)
  | notFound hop hname hf => exact herror (by decide)
  | created us networkUs writeUs syncUs hname hf =>
    cases hroute
    exact congrArg (conclude uploadedPage) (uploadResult_metrics us networkUs writeUs syncUs)
  | replaced us networkUs writeUs syncUs hname hf =>
    cases hroute
    exact congrArg (conclude uploadedPage) (uploadResult_metrics us networkUs writeUs syncUs)
  | @downloaded name f us hname hf =>
    have hlen := hread.short
    simp only [Message.body, fileBody, writeU64, List.length_append,
      BigEndian.toBytes_length] at hlen
    have hfile := downloadResult_file us (show f.bytes.length < 2 ^ 32 - 8 by omega)
    cases hroute with
    | download name =>
      exact (congrArg (conclude (downloadedPage name)) hfile).trans (downloadedPage_eq name _)
  | @listed entries us hlists =>
    have hlisting := listResult_listing us (hread.names us entries rfl)
    cases hroute with
    | health => exact congrArg (conclude fun _ => ⟨200, .ok none⟩) hlisting
    | list => exact congrArg (conclude filesPage) hlisting
  | deleted us hname hf =>
    cases hroute
    exact congrArg (conclude okPage) (okResult_ok us [])
  | changed us hname hf =>
    cases hroute
    exact congrArg (conclude okPage) (okResult_ok us [])

end Pages

end NervFS.Gateway
