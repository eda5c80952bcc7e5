import NervFS.Gateway
import NervFS.Lib.Relay

/-!
The bridge between its users and the server. Any number of requests are under way at once;
the server serves what has reached it in any order, also for users who have long been told
that the connection broke. All that happens to the files is a run of operations on a finite
map, each made once for one request that has shown a token from a login with the password,
and a response either tells the outcome of its operation or that the server could not be
asked.
-/
namespace NervFS.GatewayRuns

open Transitions Calls Protocol FileOps Handlers Requests Operations Kernel Responses Listings
open Bridge BridgeReader BridgeReplies World Replies Workers Serving Catalog AdminTokens
open Exchanges Gateway Relay
open FailedUploads (sampleHost)

/-- The socket emits a beginning of the bytes in pieces, and no more data after that. -/
def Emits (bytes : Bytes) (events : List Event) : Prop :=
  ∃ (chunks : List Bytes) (tail : List Event), events = chunks.map Event.data ++ tail ∧
    chunks.flatten <+: bytes ∧ ∀ chunk, .data chunk ∉ tail

/-- The server could not be asked, or its response did not arrive. -/
def BadGateway (response : HttpResponse) : Prop := ∃ message, response = ⟨502, .error message⟩

/-- The times at which tokens were created. -/
def tokensAfter (created : Set ℚ) (q : HttpRequest) (response : HttpResponse) : Set ℚ :=
  match response.page with
  | .token _ => insert q.now created
  | _ => created

/-- The bridge as a front of the server. The server serves one request after another, no call
of its own failing but its writes to connections that the bridge has lost. -/
def gateway (cfg : Config) (host : Host) :
    Protocol (Set ℚ) (HttpRequest × HttpResponse) Server HttpRequest Bytes HttpResponse where
  aside created x created' :=
    (∃ events, handle cfg x.1 events = .reply x.2) ∧ created' = tokensAfter created x.1 x.2
  passes _ q := (handle cfg q []).written ≠ []
  serve s q bytes s' := Handles host s (handle cfg q []).written bytes s'
  reply q answer response := ∃ events, Emits (answer.getD []) events ∧
    (handle cfg q events).response = some response

abbrev Site := State (Set ℚ) Server HttpRequest Bytes ℕ

abbrev Act := Label (HttpRequest × HttpResponse) HttpRequest HttpResponse ℕ

/-- Before the first request. -/
def opened : Site := { front := ∅, backend := {} }

/-- The tokens that users show are not forged, and the clock shows one of the given times. -/
def Plausible (cfg : Config) (times : Set ℚ) (s : Site) : Act → Prop
  | .aside (q, _) => q.now ∈ times ∧ Unforged cfg.rt cfg.authSecret cfg.tokenTtl s.front
      (tokenOf q.authorization q.query)
  | .send _ q => Unforged cfg.rt cfg.authSecret cfg.tokenTtl s.front
      (tokenOf q.authorization q.query)
  | _ => True

def SiteStep (cfg : Config) (host : Host) (times : Set ℚ) : Site → Act → Site → Prop :=
  Where (Relay.Step (gateway cfg host)) fun s a _ => Plausible cfg times s a

/-- An operation that was made for a request, and its outcome. -/
structure Performed where
  index : ℕ
  request : HttpRequest
  operation : Operation
  message : Message

/-- A login with the password at the time, answered with the token of that time. -/
def LoggedIn (cfg : Config) (acts : List Act) (time : ℚ) : Prop :=
  ∃ q body password,
    .aside (q, ⟨200, .token (createToken cfg.rt cfg.authSecret cfg.tokenTtl time)⟩) ∈ acts ∧
      q.route = .login body ∧ q.now = time ∧
      stringOrEmpty cfg.rt (body.property (literal "password")) = some password ∧
      bytesOf password = bytesOf cfg.adminPassword

/-- The request shows a token of an earlier login that has not expired. -/
def Entitled (cfg : Config) (acts : List Act) (q : HttpRequest) : Prop :=
  Issued cfg.rt cfg.authSecret cfg.tokenTtl {time | LoggedIn cfg acts time} q.now
      (tokenOf q.authorization q.query) ∨
    Extended cfg.rt cfg.authSecret cfg.tokenTtl {time | LoggedIn cfg acts time} q.now
      (tokenOf q.authorization q.query)

/-- Who gets to the files, and what is answered without the server. -/
def Admits (cfg : Config) (acts : List Act) : Act → Prop
  | .aside (q, response) =>
    (∀ route, q.route = .files route → (response = unauthorized ↔ ¬ Entitled cfg acts q)) ∧
      ∀ op, q.operation cfg = some op → TooLong op
  | .send _ q => ∀ route, q.route = .files route → Entitled cfg acts q
  | _ => True

/-- The operations that were made in a run, from no files to those of the map. -/
structure Accounts (cfg : Config) (host : Host) (acts : List Act) (s : Site)
    (performed : List Performed) (m : FileMap) : Prop where
  run : Run (fun m (p : Performed) m' => Performs host m p.operation m' p.message) ∅ performed m
  files : Abstracts (node s.backend.files) m
  once : (performed.map Performed.index).Nodup
  asked : ∀ p ∈ performed, .send p.index p.request ∈ acts ∧
    p.request.route.Asks cfg.rt p.operation
  settled : ∀ i response, .settle i response ∈ acts → ∃ q, .send i q ∈ acts ∧
    (BadGateway response ∨ ∃ op msg, ⟨i, q, op, msg⟩ ∈ performed ∧ response = pageFor q.route msg)
  admits : Past (Admits cfg) acts

section Events
variable {events : List Event}

/-- Without more data a reader waits or fails for the connection. -/
theorem readFrom_tail (r : Reader) (h : ∀ chunk, Event.data chunk ∉ events) :
    readFrom r events = none ∨
      ∃ e, readFrom r events = some (.error e) ∧ statusForError e = 502 := by
  induction events generalizing r with
  | nil => exact Or.inl rfl
  | cons event events ih =>
    have hrest : ∀ chunk, Event.data chunk ∉ events :=
      fun chunk hmem => h chunk (List.mem_cons_of_mem _ hmem)
    have hend : readFrom r (.ended :: events) = none ∨
        ∃ e, readFrom r (.ended :: events) = some (.error e) ∧ statusForError e = 502 := by
      unfold readFrom Reader.on Reader.onEnd
      by_cases hshort : r.chunks.length < r.expected
      · simp only [if_pos hshort]
        exact Or.inr ⟨closedEarly, rfl, rfl⟩
      · simp only [if_neg hshort]
        exact ih r hrest
    cases event with
    | data chunk => exact absurd List.mem_cons_self (h chunk)
    | error => exact Or.inr ⟨.socketError, rfl, rfl⟩
    | ended => exact hend
    | closed => exact hend

/-- A socket that emits a beginning of a response resolves to the response, if at all. -/
theorem readResponse_emits {bytes : Bytes} {resp : Response} (hemits : Emits bytes events)
    (h : ∀ settled, verdict bytes = some settled → settled = .ok resp) :
    readResponse events = none ∨ (verdict bytes ≠ none ∧ readResponse events = some (.ok resp)) ∨
      ∃ e, readResponse events = some (.error e) ∧ statusForError e = 502 := by
  obtain ⟨chunks, tail, rfl, ⟨rest, hrest⟩, htail⟩ := hemits
  cases hverdict : verdict chunks.flatten with
  | some settled =>
    have hall := verdict_append rest hverdict
    rw [hrest] at hall
    rw [readResponse_chunks tail hverdict, h settled hall, hall]
    exact Or.inr (Or.inl ⟨nofun, rfl⟩)
  | none =>
    have hread := readFrom_chunks chunks tail (show verdict [] = none from rfl)
    rw [List.nil_append, hverdict] at hread
    change readResponse (chunks.map Event.data ++ tail) = _ at hread
    rw [hread]
    exact (readFrom_tail _ htail).imp_right Or.inr

/-- A response of the bridge to the beginning of one of the server. -/
theorem reply_cases {cfg : Config} {q : HttpRequest} {op : Operation} {bytes : Bytes}
    {resp : Response} {response : HttpResponse} (hop : q.operation cfg = some op)
    (hlong : ¬ TooLong op) (h : ∀ settled, verdict bytes = some settled → settled = .ok resp)
    (hreply : ∃ events, Emits bytes events ∧ (handle cfg q events).response = some response) :
    (verdict bytes ≠ none ∧ response = respondFor q.route resp) ∨ BadGateway response := by
  obtain ⟨events, hemits, hresponse⟩ := hreply
  rw [(handle_sends hop hlong events).2] at hresponse
  rcases readResponse_emits hemits h with hread | ⟨hverdict, hread⟩ | ⟨e, hread, he⟩
  · rw [hread] at hresponse
    cases hresponse
  · rw [hread] at hresponse
    cases hresponse
    exact Or.inl ⟨hverdict, rfl⟩
  · rw [hread] at hresponse
    cases hresponse
    refine Or.inr ⟨messageOf e, ?_⟩
    change HttpResponse.mk (statusForError e) _ = _
    rw [he]

end Events

section Backend
variable {cfg : Config} {host : Host} {s s' : Server} {m : FileMap} {q : HttpRequest}

theorem serve_performs (hperm : ∀ kind mode, host.permits kind mode = true) (hinv : Inv host s)
    (habs : Abstracts (node s.files) m) {bytes : Bytes}
    (h : (gateway cfg host).serve s q bytes s') : ∃ op msg m', q.operation cfg = some op ∧
      ¬ TooLong op ∧ Performs host m op m' msg ∧ Readable msg ∧
      bytes = frame msg.opcode msg.elapsedUs msg.body ∧ Abstracts (node s'.files) m' ∧
      Inv host s' := by
  obtain ⟨op, hop, hlong⟩ := operation_of_written h.written_ne_nil
  obtain ⟨msg, m', hperforms⟩ := h.performs hperm hinv habs (handle_sends hop hlong []).1
  exact ⟨op, msg, m', hop, hlong, hperforms⟩

/-- What the server has made of a request that was passed on. -/
def Performed.entry (p : Performed) : ℕ × HttpRequest × Bytes :=
  (p.index, p.request, frame p.message.opcode p.message.elapsedUs p.message.body)

/-- The operation is the one that the request asks for, and its answer can be read. -/
structure Performed.Proper (cfg : Config) (p : Performed) : Prop where
  operation : p.request.operation cfg = some p.operation
  short : ¬ TooLong p.operation
  readable : Readable p.message
  page : respondFor p.request.route
    (received p.message.opcode p.message.elapsedUs p.message.body) =
      pageFor p.request.route p.message

theorem serves_performs (hperm : ∀ kind mode, host.permits kind mode = true) (hinv : Inv host s)
    (habs : Abstracts (node s.files) m) {served : List (ℕ × HttpRequest × Bytes)}
    (h : Run (Serves (gateway cfg host)) s served s') : ∃ performed m',
      served = performed.map Performed.entry ∧
      Run (fun m (p : Performed) m' => Performs host m p.operation m' p.message) m performed m' ∧
      (∀ p ∈ performed, p.Proper cfg) ∧ Abstracts (node s'.files) m' ∧ Inv host s' := by
  induction h with
  | nil => exact ⟨[], m, rfl, .nil, fun _ hp => absurd hp List.not_mem_nil, habs, hinv⟩
  | @snoc served s₁ x s' hrun hstep ih =>
    obtain ⟨performed, m₁, rfl, hperformed, hproper, habs₁, hinv₁⟩ := ih
    obtain ⟨op, msg, m', hop, hlong, hperforms, hreadable, hbytes, habs', hinv'⟩ :=
      serve_performs hperm hinv₁ habs₁ hstep
    obtain ⟨i, q, bytes⟩ := x
    refine ⟨performed ++ [⟨i, q, op, msg⟩], m', ?_, hperformed.snoc hperforms, ?_, habs', hinv'⟩
    · rw [List.map_append, List.map_singleton]
      exact congrArg (fun b => performed.map Performed.entry ++ [(i, q, b)]) hbytes
    · intro p hp
      rcases List.mem_append.mp hp with hp | hp
      · exact hproper p hp
      · rw [List.mem_singleton.mp hp]
        exact ⟨hop, hlong, hreadable, respondFor_frame (asks_of_operation hop) hperforms hreadable⟩

end Backend

section Tokens
variable {cfg : Config} {times : Set ℚ} {acts : List Act} {q : HttpRequest}

theorem documented_mono {rt : Runtime} {ttl : ℚ} {created : Set ℚ} (h : Documented rt ttl times)
    (hsub : created ⊆ times) : Documented rt ttl created :=
  ⟨h.base64, fun c hc => h.json c (hsub hc)⟩

theorem reply_injective {a b : HttpResponse} (h : Outcome.reply a = .reply b) : a = b :=
  Option.some.inj (congrArg Outcome.response h)

theorem loggedIn_snoc {a : Act} {time : ℚ} : LoggedIn cfg (acts ++ [a]) time ↔
    LoggedIn cfg acts time ∨ ∃ q body password,
      a = .aside (q, ⟨200, .token (createToken cfg.rt cfg.authSecret cfg.tokenTtl time)⟩) ∧
        q.route = .login body ∧ q.now = time ∧
        stringOrEmpty cfg.rt (body.property (literal "password")) = some password ∧
        bytesOf password = bytesOf cfg.adminPassword := by
  unfold LoggedIn
  constructor
  · rintro ⟨q, body, password, hmem, hlogin⟩
    rcases List.mem_append.mp hmem with hmem | hmem
    · exact Or.inl ⟨q, body, password, hmem, hlogin⟩
    · exact Or.inr ⟨q, body, password, (List.mem_singleton.mp hmem).symm, hlogin⟩
  · rintro (⟨q, body, password, hmem, hlogin⟩ | ⟨q, body, password, rfl, hlogin⟩)
    · exact ⟨q, body, password, List.mem_append_left _ hmem, hlogin⟩
    · exact ⟨q, body, password, List.mem_append_right _ (List.mem_singleton_self _), hlogin⟩

theorem loggedIn_other {a : Act} (h : ∀ q token, a ≠ .aside (q, ⟨200, .token token⟩)) :
    {time | LoggedIn cfg (acts ++ [a]) time} = {time | LoggedIn cfg acts time} := by
  ext time
  refine loggedIn_snoc.trans (or_iff_left ?_)
  rintro ⟨q, body, password, ha, -⟩
  exact h _ _ ha

theorem login_token {body : Json} {password : Str} (hlimited : q.limited = false)
    (hpassword : stringOrEmpty cfg.rt (body.property (literal "password")) = some password)
    (hcompare : safeCompare password cfg.adminPassword = true) : login cfg q body =
      ⟨200, .token (createToken cfg.rt cfg.authSecret cfg.tokenTtl q.now)⟩ := by
  unfold login
  rw [hlimited, hpassword]
  simp only [hcompare]
  rfl

/-- A login returns a token exactly when it has the password and is not held back. -/
theorem tokensAfter_login {body : Json} (hroute : q.route = .login body) :
    tokensAfter {time | LoggedIn cfg acts time} q (login cfg q body) =
      {time | LoggedIn cfg (acts ++ [.aside (q, login cfg q body)]) time} := by
  have hother : (∀ token, login cfg q body ≠ ⟨200, .token token⟩) →
      {time | LoggedIn cfg (acts ++ [.aside (q, login cfg q body)]) time} =
        {time | LoggedIn cfg acts time} := by
    intro h
    apply loggedIn_other
    rintro q' token heq
    injection heq with heq
    exact h token (Prod.mk.inj heq).2
  have hsame : ∀ {response : HttpResponse}, login cfg q body = response →
      (∀ token, response.page ≠ .token token) →
      tokensAfter {time | LoggedIn cfg acts time} q (login cfg q body) =
        {time | LoggedIn cfg (acts ++ [.aside (q, login cfg q body)]) time} := by
    intro response hlogin hpage
    rw [hother (by
      intro token heq
      rw [hlogin] at heq
      exact hpage token (congrArg HttpResponse.page heq)), hlogin]
    unfold tokensAfter
    split
    · rename_i htoken
      exact absurd htoken (hpage _)
    · rfl
  cases hlimited : q.limited with
  | true => exact hsame (if_pos hlimited) nofun
  | false =>
    cases hpassword : stringOrEmpty cfg.rt (body.property (literal "password")) with
    | none =>
      refine hsame (show _ = ⟨500, .exception⟩ from ?_) nofun
      unfold login
      rw [hlimited, hpassword]
      rfl
    | some password =>
      cases hcompare : safeCompare password cfg.adminPassword with
      | false =>
        refine hsame
          (show _ = ⟨401, .error (some "Invalid admin password".toList)⟩ from ?_) nofun
        unfold login
        rw [hlimited, hpassword]
        simp only [hcompare]
        rfl
      | true =>
        rw [login_token hlimited hpassword hcompare]
        ext time
        change time ∈ insert q.now _ ↔ _
        rw [Set.mem_insert_iff, Set.mem_ofPred_eq, Set.mem_ofPred_eq, loggedIn_snoc, or_comm]
        refine or_congr_right ?_
        constructor
        · rintro rfl
          exact ⟨q, body, password, rfl, hroute, rfl, hpassword,
            (safeCompare_iff ..).mp hcompare⟩
        · rintro ⟨q', body', password', heq, -, hnow, -⟩
          injection heq with heq
          rw [← hnow, (Prod.mk.inj heq).1]

theorem requireAdmin_iff_entitled (hdoc : Documented cfg.rt cfg.tokenTtl times)
    (hsub : {time | LoggedIn cfg acts time} ⊆ times)
    (hunforged : Unforged cfg.rt cfg.authSecret cfg.tokenTtl {time | LoggedIn cfg acts time}
      (tokenOf q.authorization q.query)) :
    requireAdmin cfg.rt cfg.authSecret q.now q.authorization q.query = true ↔
      Entitled cfg acts q :=
  verifyToken_iff (documented_mono hdoc hsub) hunforged

/-- The tokens are those of the logins, and whoever got to the files had one of them. -/
structure Guarded (cfg : Config) (times : Set ℚ) (acts : List Act) (s : Site) : Prop where
  created : s.front = {time | LoggedIn cfg acts time}
  times : s.front ⊆ times
  admits : Past (Admits cfg) acts

theorem Guarded.step {host : Host} {s s' : Site} {a : Act}
    (hdoc : Documented cfg.rt cfg.tokenTtl times) (h : Guarded cfg times acts s)
    (hs : SiteStep cfg host times s a s') : Guarded cfg times (acts ++ [a]) s' := by
  have hcreated := h.created
  have hentitled : ∀ {q : HttpRequest}, Unforged cfg.rt cfg.authSecret cfg.tokenTtl s.front
      (tokenOf q.authorization q.query) →
      (requireAdmin cfg.rt cfg.authSecret q.now q.authorization q.query = true ↔
        Entitled cfg acts q) := by
    intro q hunforged
    rw [hcreated] at hunforged
    exact requireAdmin_iff_entitled hdoc (hcreated ▸ h.times) hunforged
  have hkeep : ∀ {a : Act}, (∀ q token, a ≠ .aside (q, ⟨200, .token token⟩)) →
      s.front = {time | LoggedIn cfg (acts ++ [a]) time} :=
    fun hother => hcreated.trans (loggedIn_other hother).symm
  obtain ⟨hstep, hplausible⟩ := hs
  cases hstep with
  | @aside x f hx =>
    obtain ⟨q, response⟩ := x
    obtain ⟨⟨events, hreply⟩, rfl⟩ := hx
    obtain ⟨hnow, hunforged⟩ := hplausible
    have hin : tokensAfter s.front q response ⊆ times := by
      unfold tokensAfter
      split
      · exact Set.insert_subset hnow h.times
      · exact h.times
    rcases handle_cases cfg q events with ⟨op, hop, hlong⟩ | ⟨body, hroute, hlogin⟩ |
      ⟨route, hroute, hadmin, hlogin⟩ | ⟨route, hroute, hadmin, hop, status, message, hlogin, hne⟩
    · have hserved := (handle_sends hop hlong events).1
      rw [hreply] at hserved
      exact absurd hserved (BridgeNames.not_servedAs_nil op)
    · obtain rfl := reply_injective (hlogin.symm.trans hreply)
      refine ⟨?_, hin, h.admits.snoc ⟨fun route hfiles => ?_, fun op hop => ?_⟩⟩
      · change tokensAfter s.front q _ = _
        rw [hcreated, tokensAfter_login hroute]
      · rw [hroute] at hfiles
        cases hfiles
      · unfold HttpRequest.operation at hop
        rw [hroute] at hop
        cases hop
    · obtain rfl := reply_injective (hlogin.symm.trans hreply)
      refine ⟨hkeep (fun _ _ heq => by cases heq), hin,
        h.admits.snoc ⟨fun route' _ => ?_, fun op hop => ?_⟩⟩
      · rw [← hentitled hunforged, hadmin]
        exact iff_of_true rfl Bool.false_ne_true
      · unfold HttpRequest.operation at hop
        simp only [hroute, hadmin] at hop
        cases hop
    · obtain rfl := reply_injective (hlogin.symm.trans hreply)
      refine ⟨hkeep (fun _ _ heq => by cases heq), hin,
        h.admits.snoc ⟨fun route' _ => ?_, hop⟩⟩
      rw [← hentitled hunforged, hadmin]
      refine iff_of_false (fun heq => hne (congrArg HttpResponse.status heq)) ?_
      exact not_not.mpr rfl
  | @send i q hnew hpasses =>
    refine ⟨hkeep (fun _ _ heq => by cases heq), h.times, h.admits.snoc fun route hroute => ?_⟩
    obtain ⟨op, hop, -⟩ := operation_of_written hpasses
    unfold HttpRequest.operation at hop
    simp only [hroute] at hop
    exact (hentitled hplausible).mp (Option.ite_none_right_eq_some.mp hop).1
  | serve hjob hopen hserve =>
    exact ⟨hkeep (fun _ _ heq => by cases heq), h.times, h.admits.snoc trivial⟩
  | settle hjob hopen hreply =>
    exact ⟨hkeep (fun _ _ heq => by cases heq), h.times, h.admits.snoc trivial⟩

end Tokens

section Runs
variable {cfg : Config} {host : Host} {times : Set ℚ} {acts more : List Act} {s t : Site}

theorem relay_run (h : Run (SiteStep cfg host times) s acts t) :
    Run (Relay.Step (gateway cfg host)) s acts t := h.mono fun _ _ _ => And.left

/-- A site with the account of the server's side and the operations that it stands for. -/
structure Standing (cfg : Config) (host : Host) (times : Set ℚ) (acts : List Act) (s : Site)
    (performed : List Performed) (m : FileMap) : Prop where
  guarded : Guarded cfg times acts s
  account : Account (gateway cfg host) {} acts (performed.map Performed.entry) s
  run : Run (fun m (p : Performed) m' => Performs host m p.operation m' p.message) ∅ performed m
  proper : ∀ p ∈ performed, p.Proper cfg
  files : Abstracts (node s.backend.files) m
  inv : Inv host s.backend

theorem Standing.accounts {performed : List Performed} {m : FileMap}
    (h : Standing cfg host times acts s performed m) : Accounts cfg host acts s performed m where
  run := h.run
  files := h.files
  once := by
    have honce := h.account.once
    rwa [List.map_map] at honce
  asked p hp := by
    have hentry : p.entry ∈ performed.map Performed.entry := List.mem_map_of_mem hp
    exact ⟨h.account.sent_of_served hentry, asks_of_operation (h.proper p hp).operation⟩
  settled i response hmem := by
    obtain ⟨q, hsent, hreply⟩ := h.account.settled i response hmem
    refine ⟨q, hsent, ?_⟩
    rcases hreply with hreply | ⟨bytes, hserved, hreply⟩
    · obtain ⟨_, hpasses⟩ := h.account.passed i q hsent
      obtain ⟨op, hop, hlong⟩ := operation_of_written hpasses
      have hnothing : ∀ settled, verdict [] = some settled → settled = .ok (received 0 0 []) := by
        intro settled hno
        cases hno
      rcases reply_cases hop hlong hnothing hreply with ⟨hno, -⟩ | hbad
      · exact absurd rfl hno
      · exact Or.inl hbad
    · obtain ⟨p, hp, hentry⟩ := List.mem_map.mp hserved
      obtain ⟨rfl, hrest⟩ := Prod.mk.inj hentry
      obtain ⟨rfl, rfl⟩ := Prod.mk.inj hrest
      have hproper := h.proper p hp
      have hverdict := verdict_frame p.message.opcode p.message.elapsedUs []
        hproper.readable.short
      rw [List.append_nil] at hverdict
      have hunique : ∀ settled,
          verdict (frame p.message.opcode p.message.elapsedUs p.message.body) = some settled →
            settled = .ok (received p.message.opcode p.message.elapsedUs p.message.body) := by
        intro settled hsettled
        rw [hverdict] at hsettled
        exact (Option.some.inj hsettled).symm
      rcases reply_cases hproper.operation hproper.short hunique hreply with ⟨-, hpage⟩ | hbad
      · exact Or.inr ⟨p.operation, p.message, hp, hpage.trans hproper.page⟩
      · exact Or.inl hbad
  admits := h.guarded.admits

theorem opened_standing : Standing cfg host times [] opened [] ∅ where
  guarded :=
    { created := by
        ext time
        exact iff_of_false nofun fun ⟨_, _, _, hmem, _⟩ => nomatch hmem
      times := Set.empty_subset times
      admits := past_nil _ }
  account := account_nil ∅ ({} : Server)
  run := .nil
  proper _ hp := absurd hp List.not_mem_nil
  files _ := rfl
  inv := inv_start

/-- What has been made stays made, in the same order, while the run goes on. -/
theorem Standing.run_more (hperm : ∀ kind mode, host.permits kind mode = true)
    (hdoc : Documented cfg.rt cfg.tokenTtl times) {performed : List Performed} {m : FileMap}
    (h : Standing cfg host times acts s performed m)
    (hrun : Run (SiteStep cfg host times) s more t) :
    ∃ performed' m', Standing cfg host times (acts ++ more) t (performed ++ performed') m' := by
  obtain ⟨served, haccount, hserves⟩ := h.account.run_more (relay_run hrun)
  obtain ⟨performed', m', rfl, hperformed, hproper, habs, hinv⟩ :=
    serves_performs hperm h.inv h.files hserves
  refine ⟨performed', m', ?_, ?_, h.run.append hperformed, ?_, habs, hinv⟩
  · refine hrun.traceInvariant (I := fun more t => Guarded cfg times (acts ++ more) t) ?_ ?_
    · rw [List.append_nil]
      exact h.guarded
    · intro more m a t hm hstep
      rw [← List.append_assoc]
      exact hm.step hdoc hstep
  · rw [List.map_append]
    exact haccount
  · intro p hp
    rcases List.mem_append.mp hp with hp | hp
    · exact h.proper p hp
    · exact hproper p hp

theorem standing_of_run (hperm : ∀ kind mode, host.permits kind mode = true)
    (hdoc : Documented cfg.rt cfg.tokenTtl times)
    (h : Run (SiteStep cfg host times) opened acts s) :
    ∃ performed m, Standing cfg host times acts s performed m :=
  opened_standing.run_more hperm hdoc h

/-- A response that tells of an operation tells of the one that was made for its request. -/
theorem Standing.told {performed : List Performed} {m : FileMap}
    (h : Standing cfg host times acts s performed m)
    (hrun : Run (SiteStep cfg host times) opened acts s) {i : ℕ} {q : HttpRequest}
    {response : HttpResponse} (hsent : .send i q ∈ acts) (hsettled : .settle i response ∈ acts)
    (hgood : ¬ BadGateway response) :
    ∃ p ∈ performed, p.index = i ∧ p.request = q ∧ response = pageFor q.route p.message := by
  obtain ⟨q', hsent', hresponse⟩ := h.accounts.settled i response hsettled
  obtain rfl := sent_unique (relay_run hrun) hsent hsent'
  rcases hresponse with hbad | ⟨op, msg, hp, hpage⟩
  · exact absurd hbad hgood
  · exact ⟨_, hp, rfl, rfl, hpage⟩

theorem Standing.index_new {performed : List Performed} {m : FileMap}
    (h : Standing cfg host times acts s performed m)
    (hrun : Run (SiteStep cfg host times) s more t) {i : ℕ} {q : HttpRequest}
    (hsent : .send i q ∈ more) : ∀ p ∈ performed, p.index ≠ i := by
  rintro p hp rfl
  apply h.account.not_served_before (relay_run hrun) hsent
  rw [List.map_map]
  exact List.mem_map_of_mem hp

/-- A run of the bridge accounts for every change of the files and for every response, and
what it has accounted for stays while it goes on. -/
theorem gateway_accounts (hperm : ∀ kind mode, host.permits kind mode = true)
    (hdoc : Documented cfg.rt cfg.tokenTtl times)
    (h : Run (SiteStep cfg host times) opened acts s) :
    ∃ performed m, Accounts cfg host acts s performed m ∧
      ∀ more t, Run (SiteStep cfg host times) s more t →
        ∃ performed' m', Accounts cfg host (acts ++ more) t (performed ++ performed') m' := by
  obtain ⟨performed, m, hstanding⟩ := standing_of_run hperm hdoc h
  refine ⟨performed, m, hstanding.accounts, fun more t hmore => ?_⟩
  obtain ⟨performed', m', hstanding'⟩ := hstanding.run_more hperm hdoc hmore
  exact ⟨performed', m', hstanding'.accounts⟩

end Runs

/-- The runtime of the sample token, on which the text of a number is its decimal digits. -/
def bridgeRuntime : Runtime :=
  { sampleRuntime with numberText := fun n => Nat.toDigits 10 n.num.toNat }

def sampleConfig : Config := ⟨bridgeRuntime, literal "hunter2", sampleSecret, 4000⟩

theorem bridgeRuntime_documented : Documented bridgeRuntime 4000 {1000} where
  base64 := sampleRuntime_documented.base64
  json c hc := by
    rw [Set.mem_singleton_iff.mp hc]
    have hexp : bridgeRuntime.plus 1000 4000 = 5000 := by decide +kernel
    rw [hexp]
    rfl

def bridgeToken : Str := createToken bridgeRuntime sampleSecret 4000 1000

theorem bridgeToken_eq : bridgeToken = sampleToken := by decide +kernel

def sampleBody : Json := .object [(literal "password", .string (literal "hunter2"))]

def sampleLogin : HttpRequest := { route := .login sampleBody, now := 1000 }

def sampleEntry : Act := .aside (sampleLogin, ⟨200, .token bridgeToken⟩)

/-- A request with the token. -/
def sampleAsk (route : FileRoute) : HttpRequest where
  route := .files route
  authorization := bearer ++ bridgeToken
  now := 2000

/-- The request is answered before anything else happens. -/
def exchange (i : ℕ) (route : FileRoute) (response : HttpResponse) : List Act :=
  [.send i (sampleAsk route), .serve i, .settle i response]

def sampleUpload : FileRoute := .upload (some (['a'], [1, 2]))

def sampleActs : List Act :=
  sampleEntry :: exchange 0 sampleUpload (uploadedPage ⟨0, some ⟨0, 0, 0⟩⟩)

def enteredSite : Site := { opened with front := insert 1000 ∅ }

theorem sampleEntry_step :
    SiteStep sampleConfig sampleHost {1000} opened sampleEntry enteredSite := by
  have hpassword : stringOrEmpty sampleConfig.rt (sampleBody.property (literal "password")) =
      some (literal "hunter2") := by decide +kernel
  have hcompare : safeCompare (literal "hunter2") sampleConfig.adminPassword = true :=
    (safeCompare_iff ..).mpr rfl
  have htoken : login sampleConfig sampleLogin sampleBody = ⟨200, .token bridgeToken⟩ :=
    login_token rfl hpassword hcompare
  have hanswered : handle sampleConfig sampleLogin [] = .reply ⟨200, .token bridgeToken⟩ :=
    congrArg Outcome.reply htoken
  have hnoToken : Unforged bridgeRuntime sampleSecret 4000 ∅ (tokenOf [] []) := by
    intro payload signature rest hparts _
    cases hparts
  exact ⟨.aside ⟨⟨[], hanswered⟩, rfl⟩, rfl, hnoToken⟩

theorem sampleAsk_admitted : requireAdmin sampleConfig.rt sampleConfig.authSecret 2000
    (bearer ++ bridgeToken) [] = true := by
  rw [bridgeToken_eq]
  decide +kernel

theorem sampleAsk_handled (route : FileRoute) (events : List Event) :
    handle sampleConfig (sampleAsk route) events = handleFiles bridgeRuntime events route :=
  if_pos sampleAsk_admitted

theorem tokenOf_bearer (token query : Str) : tokenOf (bearer ++ token) query = token := by
  have hprefix : bearer.isPrefixOf (bearer ++ token) = true :=
    List.isPrefixOf_iff_prefix.mpr (List.prefix_append ..)
  unfold tokenOf
  rw [if_pos hprefix, List.drop_left' (by decide)]

theorem sampleAsk_unforged (route : FileRoute) :
    Unforged bridgeRuntime sampleSecret 4000 (insert 1000 ∅)
      (tokenOf (sampleAsk route).authorization []) := by
  intro payload signature rest hparts _
  rw [sampleAsk, tokenOf_bearer, bridgeToken, splitOn_createToken] at hparts
  cases hparts
  exact ⟨1000, Set.mem_insert _ _, rfl⟩

/-- The server reads the request, and the response to its answer comes back. -/
theorem exchange_run {s : Site} {i : ℕ} {route : FileRoute} {opcode : UInt16}
    {payload bytes : Bytes} {b b' : Server} {response : HttpResponse}
    (hfront : s.front = insert 1000 ∅) (hbackend : s.backend = b) (hnew : s.jobs i = none)
    (hreceives : Receives (handleFiles bridgeRuntime [] route).written
      (plainRequest 5 opcode payload))
    (hordinary : Ordinary b (plainRequest 5 opcode payload))
    (hrespond : respond sampleHost b (plainRequest 5 opcode payload) = some (b', bytes))
    (hresponse : (handleFiles bridgeRuntime [.data bytes] route).response = some response) :
    ∃ t, Run (SiteStep sampleConfig sampleHost {1000}) s (exchange i route response) t ∧
      t.front = insert 1000 ∅ ∧ t.backend = b' ∧ ∀ j, j ≠ i → t.jobs j = s.jobs j := by
  subst hbackend
  have hserve : (gateway sampleConfig sampleHost).serve s.backend (sampleAsk route) bytes b' :=
    ⟨_, _, _, _, sampleAsk_handled route [] ▸ hreceives, hordinary, hrespond, hrespond⟩
  have hpasses : (gateway sampleConfig sampleHost).passes s.front (sampleAsk route) := by
    exact hserve.written_ne_nil
  have hreply : (gateway sampleConfig sampleHost).reply (sampleAsk route) (some bytes) response :=
    ⟨[.data bytes], ⟨[bytes], [], rfl, by simp, nofun⟩, sampleAsk_handled route _ ▸ hresponse⟩
  let sent : Site := s.setJob i ⟨sampleAsk route, none, false⟩
  let served : Site := { sent.setJob i ⟨sampleAsk route, some bytes, false⟩ with backend := b' }
  have hsent : sent.jobs i = some ⟨sampleAsk route, none, false⟩ := Function.update_self ..
  have hserved : served.jobs i = some ⟨sampleAsk route, some bytes, false⟩ :=
    Function.update_self ..
  refine ⟨served.setJob i ⟨sampleAsk route, some bytes, true⟩, ?_, hfront, rfl, fun j hj => ?_⟩
  · refine Run.cons ⟨.send hnew hpasses, ?_⟩ (Run.cons ⟨.serve hsent rfl hserve, trivial⟩
      (.single ⟨.settle hserved rfl hreply, trivial⟩))
    change Unforged _ _ _ s.front _
    rw [hfront]
    exact sampleAsk_unforged route
  · rw [setJob_jobs, if_neg hj]
    change (sent.setJob i _).jobs j = _
    rw [setJob_jobs, if_neg hj]
    exact (setJob_jobs ..).trans (if_neg hj)

theorem sampleUpload_run : ∃ t : Site,
    Run (SiteStep sampleConfig sampleHost {1000}) opened sampleActs t ∧ t.front = insert 1000 ∅ ∧
      t.backend = sampleStored ∧ ∀ j, j ≠ 0 → t.jobs j = none := by
  have hreceives : Receives (handleFiles bridgeRuntime [] sampleUpload).written
      (plainRequest 5 opReqUpload (uploadPayload [0x61] [1, 2])) :=
    ⟨by decide +kernel, by decide +kernel, by decide +kernel⟩
  obtain ⟨t, hrun, hfront, hbackend, hjobs⟩ := exchange_run (s := enteredSite) (i := 0) rfl rfl
    rfl hreceives (plainRequest_ordinary (by decide) (by decide)) rfl rfl
  exact ⟨t, Run.cons sampleEntry_step hrun, hfront, hbackend, hjobs⟩

/-- The file arrives, and the run accounts for it. -/
theorem gateway_accounts_uploaded : ∃ s performed m,
    Run (SiteStep sampleConfig sampleHost {1000}) opened sampleActs s ∧
      Accounts sampleConfig sampleHost sampleActs s performed m ∧
      m.lookup [0x61] = some ⟨[1, 2], 0o644⟩ := by
  obtain ⟨s, hrun, -, hbackend, -⟩ := sampleUpload_run
  obtain ⟨performed, m, haccounts, -⟩ :=
    gateway_accounts (fun _ _ => rfl) bridgeRuntime_documented hrun
  refine ⟨s, performed, m, hrun, haccounts, (haccounts.files [0x61]).trans ?_⟩
  rw [hbackend]
  rfl

end NervFS.GatewayRuns
