import NervFS.Dialogues

/-!
Sessions at a terminal. The client is invoked again and again, with any arguments, local
files and connections, and all that happens to the local and the remote files is a run of a
pair of maps. An invocation makes at most the one operation that its arguments ask for, at
once or after the client has gone; a status of 0 says that the server has made it and that
its answer has been printed and saved, as far as the local disk has taken it.
-/
namespace NervFS.Terminal

open Programs Transitions Calls Protocol FileOps Handlers Requests Operations Kernel Responses
open Listings World Replies Workers Serving Catalog Exchanges CommandLine CommandFrames
open CommandSafety Dialogues GoneClients
open FailedUploads (sampleHost)

inductive Command
  | list
  | upload (localFile remoteName : Bytes)
  | download (remoteName localFile : Bytes)
  | delete (remoteName : Bytes)
  | chmod (remoteName modeStr : Bytes)

/-- The command of the name and the arguments behind it; `list` does not count them. -/
def commandOf (command : Bytes) (args : List Bytes) : Option Command :=
  if command = asciiBytes "list" then some .list
  else
    match args with
    | [remoteName] => if command = asciiBytes "delete" then some (.delete remoteName) else none
    | [first, second] =>
      if command = asciiBytes "upload" then some (.upload first second)
      else if command = asciiBytes "download" then some (.download first second)
      else if command = asciiBytes "chmod" then some (.chmod first second)
      else none
    | _ => none

/-- How `connect_to_server` ends. -/
inductive Connection
  | noSocket
  | invalidHost
  | refused
  | connected (fd : ℕ)

def connectToServer : Connection → Except Line ℕ
  | .noSocket => .error (.complaint (asciiBytes "socket"))
  | .invalidHost => .error (.complaint (asciiBytes "invalid host address"))
  | .refused => .error (.complaint (asciiBytes "connect"))
  | .connected fd => .ok fd

/-- The local files. -/
abbrev Disk := Bytes → Option LocalFile

/-- A file that is not there cannot be opened. -/
def Command.run (fd : ℕ) (io : Input) (out : Output) (disk : Disk) : Command → Prog Result
  | .list => doList fd
  | .upload localFile remoteName =>
    match disk localFile with
    | some file => doUpload fd io file remoteName
    | none => doUpload fd { io with opens := false } ⟨[], by decide⟩ remoteName
  | .download remoteName _ => doDownload fd out remoteName
  | .delete remoteName => doDelete fd remoteName
  | .chmod remoteName modeStr => doChmod fd remoteName modeStr

def usage (program : Bytes) : List Line :=
  [.complaint (asciiBytes "usage " ++ program ++ asciiBytes " host port command args"),
    .complaint (asciiBytes "  list"),
    .complaint (asciiBytes "  upload local_file remote_name"),
    .complaint (asciiBytes "  download remote_name local_file"),
    .complaint (asciiBytes "  delete remote_name"),
    .complaint (asciiBytes "  chmod remote_name mode_octal")]

def unknownCommand : Line :=
  .complaint (asciiBytes "unknown command or wrong number of arguments")

/-- The command, if there is one, on the connection. -/
def perform (fd : ℕ) (io : Input) (out : Output) (disk : Disk) : Option Command → Prog Result
  | some c => c.run fd io out disk
  | none => return ⟨1, [unknownCommand], none⟩

def main (argv : List Bytes) (connection : Connection) (io : Input) (out : Output)
    (disk : Disk) : Prog Result :=
  match argv with
  | _ :: _ :: _ :: command :: args =>
    match connectToServer connection with
    | .error line => return ⟨1, [line], none⟩
    | .ok fd => do
      let result ← perform fd io out disk (commandOf command args)
      sockClose fd
      return result
  | _ => return ⟨1, usage (argv.headD []), none⟩

/-- One run of the client, and what it came to; there is no result when a signal has killed
the client. -/
structure Invocation where
  argv : List Bytes
  connection : Connection
  io : Input
  out : Output
  result : Option Result

def Invocation.status (x : Invocation) : Option ℕ := x.result.map Result.rc

def Invocation.command (x : Invocation) : Option Command :=
  match x.argv with
  | _ :: _ :: _ :: command :: args => commandOf command args
  | _ => none

/-- The local files after the invocation. -/
def Leaves (x : Invocation) (disk disk' : Disk) : Prop :=
  match x.command, x.result.bind Result.saved with
  | some (.download _ localFile), some content =>
    ∃ file : LocalFile, file.content = content ∧ disk' = Function.update disk localFile (some file)
  | _, _ => disk' = disk

structure Session where
  disk : Disk
  server : Server := {}
  /-- what clients that have gone wrote to the server and it has not answered -/
  abandoned : List Bytes := []

/-- The client is run, or the server comes to what a client that has gone wrote to it. -/
inductive Event
  | invoked (x : Invocation)
  | late (written : Bytes)

inductive Happens (host : Host) : Session → Event → Session → Prop
  | invoked {s : Session} {x : Invocation} {fd : ℕ} {c : Conn} {disk : Disk}
    (htalks : Talks host fd (main x.argv x.connection x.io x.out s.disk) { server := s.server }
      x.result c) (hdisk : Leaves x s.disk disk) :
    Happens host s (.invoked x) ⟨disk, c.server, c.abandoned ++ s.abandoned⟩
  /-- At any time later, or never; the answer goes nowhere. -/
  | late {disk : Disk} {server server' : Server} {before after : List Bytes}
    {written bytes : Bytes} (h : Handles host server written bytes server') :
    Happens host ⟨disk, server, before ++ written :: after⟩ (.late written)
      ⟨disk, server', before ++ after⟩

/-- What the arguments of a command ask the server for. Only an octal numeral that fits the
field of a mode names one. -/
inductive Command.Asks (disk : Disk) : Command → Operation → Prop
  | list : Asks disk .list .list
  | upload {localFile remoteName : Bytes} {file : LocalFile} (hfile : disk localFile = some file) :
    Asks disk (.upload localFile remoteName) (.upload remoteName file.content)
  | download (remoteName localFile : Bytes) :
    Asks disk (.download remoteName localFile) (.download remoteName)
  | delete (remoteName : Bytes) : Asks disk (.delete remoteName) (.delete remoteName)
  | chmod {remoteName modeStr : Bytes} {mode : UInt32} (hmode : ∀ n : OctalNumeral,
      n.digits = modeStr → n.value < 2 ^ 32 → mode.toNat = n.value) :
    Asks disk (.chmod remoteName modeStr) (.chmod remoteName mode)

def Invocation.Asks (x : Invocation) (disk : Disk) (op : Operation) : Prop :=
  ∃ c, x.command = some c ∧ c.Asks disk op

/-- The request fits the fields of a frame. -/
def Fitting (s : Session) : Event → Prop
  | .invoked x => ∀ op, x.Asks s.disk op → ¬ TooLong op
  | .late _ => True

/-- The client has failed, or was killed. -/
def Failed (r : Option Result) : Prop := ∀ b ∈ r, Fails b

/-- The local and the remote files, and the operations that the server has not come to. -/
structure Ledger where
  disk : Disk
  files : FileMap := ∅
  pending : List Operation := []

/-- What an event does to the local and the remote files. -/
inductive Does (host : Host) : Ledger → Event → Ledger → Prop
  | nothing {l : Ledger} {x : Invocation} (h : Failed x.result) : Does host l (.invoked x) l
  /-- The client has gone before the server came to its request. -/
  | left {l : Ledger} {x : Invocation} {op : Operation} (hop : x.Asks l.disk op)
    (h : Failed x.result) : Does host l (.invoked x) { l with pending := op :: l.pending }
  /-- The answer has not arrived. -/
  | unheard {l : Ledger} {x : Invocation} {op : Operation} {m : FileMap} {msg : Message}
    (hop : x.Asks l.disk op) (hp : Performs host l.files op m msg) (h : Failed x.result) :
    Does host l (.invoked x) { l with files := m }
  | told {l : Ledger} {x : Invocation} {op : Operation} {m : FileMap} {msg : Message} {r : Result}
    {disk : Disk} (hop : x.Asks l.disk op) (hp : Performs host l.files op m msg)
    (hr : x.result = some r) (h : Shows x.out msg r) (hdisk : Leaves x l.disk disk) :
    Does host l (.invoked x) ⟨disk, m, l.pending⟩
  | late {disk : Disk} {files m : FileMap} {before after : List Operation} {op : Operation}
    {msg : Message} {written : Bytes} (hserved : ServedAs written op)
    (hp : Performs host files op m msg) :
    Does host ⟨disk, files, before ++ op :: after⟩ (.late written) ⟨disk, m, before ++ after⟩

/-- The operation of the frame that a command builds. -/
def Command.sends (disk : Disk) : Command → Option Operation
  | .list => some .list
  | .upload localFile remoteName =>
    (disk localFile).map fun file => .upload remoteName file.content
  | .download remoteName _ => some (.download remoteName)
  | .delete remoteName => some (.delete remoteName)
  | .chmod remoteName modeStr => some (.chmod remoteName (UInt32.ofInt (strtolOctal modeStr)))

/-- These bytes are what was written of the frame of the operation. -/
def Began (written : Bytes) (op : Operation) : Prop :=
  ∃ frame, ServedAs frame op ∧ written <+: frame

section Commands
variable {host : Host} {s : Server} {fd : ℕ} {io : Input} {out : Output} {disk : Disk}
variable {c : Command} {op : Operation} {m m' : FileMap} {msg : Message} {stream : Bytes}

theorem cutName_of_short (h : ¬ TooLong op) : cutName (nameOf op) = nameOf op := by
  unfold TooLong at h
  exact cutName_of_lt (by omega)

theorem run_upload {localFile remoteName : Bytes} {file : LocalFile}
    (h : disk localFile = some file) :
    (Command.upload localFile remoteName).run fd io out disk = doUpload fd io file remoteName := by
  dsimp only [Command.run]
  rw [h]

theorem asks_of_sends (h : c.sends disk = some op) : c.Asks disk op := by
  cases c with
  | list =>
    cases h
    exact .list
  | upload localFile remoteName =>
    obtain ⟨file, hfile, rfl⟩ := Option.map_eq_some_iff.mp h
    exact .upload hfile
  | download remoteName localFile =>
    cases h
    exact .download remoteName localFile
  | delete remoteName =>
    cases h
    exact .delete remoteName
  | chmod remoteName modeStr =>
    cases h
    refine .chmod fun n hdigits hlt => ?_
    rw [← hdigits]
    exact mode_toNat hlt

/-- Only a local file that is not there leaves a command without an operation. -/
theorem run_unopened (h : c.sends disk = none) :
    c.run fd io out disk = .ret ⟨1, [openFailed], none⟩ := by
  cases c with
  | upload localFile remoteName =>
    have hfile : disk localFile = none := Option.map_eq_none_iff.mp h
    dsimp only [Command.run]
    rw [hfile]
    rfl
  | _ => cases h

/-- A command puts no more on the wire than the frame of its operation. -/
theorem command_writes (hop : c.sends disk = some op) (hshort : ¬ TooLong op) :
    Writes fd (ServedAs · op) [] (c.run fd io out disk) := by
  have hcut := cutName_of_short hshort
  cases c with
  | list =>
    cases hop
    exact doList_writes fd
  | upload localFile remoteName =>
    obtain ⟨file, hfile, rfl⟩ := Option.map_eq_some_iff.mp hop
    rw [run_upload hfile]
    have hcut : cutName remoteName = remoteName := hcut
    unfold TooLong at hshort
    simp only [nameOf, payloadOf, upload_length] at hshort
    have hwrites := doUpload_writes fd io file remoteName
    rw [hcut] at hwrites
    exact hwrites (by omega)
  | download remoteName localFile =>
    cases hop
    have hcut : cutName remoteName = remoteName := hcut
    have hwrites := doDownload_writes fd out remoteName
    rwa [hcut] at hwrites
  | delete remoteName =>
    cases hop
    have hcut : cutName remoteName = remoteName := hcut
    have hwrites := doDelete_writes fd remoteName
    rwa [hcut] at hwrites
  | chmod remoteName modeStr =>
    cases hop
    have hcut : cutName remoteName = remoteName := hcut
    apply doChmod_writes
    intro frame hframe
    rwa [hcut] at hframe

/-- What is certain of what a command does with an answer is certain of the command. -/
theorem always_command {Q : Result → Bytes → Prop} (hop : c.sends disk = some op)
    (hshort : ¬ TooLong op) (hfail : ∀ r, Fails r → Q r stream)
    (hlist : op = .list → Always Q (readListing fd) stream)
    (hdownload : ∀ name, op = .download name → Always Q (readDownload fd out) stream)
    (hsimple : op ≠ .list → (∀ name, op ≠ .download name) → Always Q (readSimpleResult fd) stream) :
    Always Q (c.run fd io out disk) stream := by
  cases c with
  | list =>
    cases hop
    exact always_doList hfail (hlist rfl)
  | upload localFile remoteName =>
    obtain ⟨file, hfile, rfl⟩ := Option.map_eq_some_iff.mp hop
    rw [run_upload hfile]
    have hcut : cutName remoteName = remoteName := cutName_of_short hshort
    unfold TooLong at hshort
    simp only [nameOf, payloadOf, upload_length] at hshort
    refine always_doUpload ?_ hfail (hsimple (fun h => by cases h) fun _ h => by cases h)
    rw [hcut]
    omega
  | download remoteName localFile =>
    cases hop
    exact always_namedRequest rfl (by decide) hfail (hdownload _ rfl)
  | delete remoteName =>
    cases hop
    exact always_namedRequest rfl (by decide) hfail
      (hsimple (fun h => by cases h) fun _ h => by cases h)
  | chmod remoteName modeStr =>
    cases hop
    exact always_namedRequest (BigEndian.toBytes_length ..) (by decide) hfail
      (hsimple (fun h => by cases h) fun _ h => by cases h)

theorem command_fails (hop : c.sends disk = some op) (hshort : ¬ TooLong op) :
    Always (fun r _ => Fails r) (c.run fd io out disk) [] :=
  always_command hop hshort (fun _ h => h) (fun _ => readListing_fails)
    (fun _ _ => readDownload_fails) fun _ _ => readSimpleResult_fails

theorem simple_error (errCode : UInt16) {text : Bytes} (h : text.length < 65536 ∧ 0 ∉ text) :
    Simple (.error errCode text) := h

/-- A command prints and saves the answer to its operation, or it fails. -/
theorem command_tells (hop : c.sends disk = some op) (hshort : ¬ TooLong op)
    (hinv : Inv host s) (habs : Abstracts (node s.files) m) (hp : Performs host m op m' msg)
    (hread : Readable msg) (hstream : stream <+: frame msg.opcode msg.elapsedUs msg.body) :
    Tells out msg (c.run fd io out disk) stream := by
  have hforbidden : Simple (.error errForbidden msgInvalidFilename) :=
    simple_error _ ⟨by decide, by decide⟩
  have hnotFound : Simple (.error errNotFound msgNotFound) := simple_error _ ⟨by decide, by decide⟩
  refine always_command hop hshort (fun _ h => Or.inr h) (fun hlist => ?_) (fun name hload => ?_)
    fun hlist hload => ?_
  · subst hlist
    cases hp with
    | forbidden hne => exact absurd rfl hne
    | listed us hlists =>
      refine readListing_tells us (hread.names us _ rfl) (fun e he => ?_) hstream
      obtain ⟨f, hf, -⟩ := (hlists.mem_iff e).mp he
      exact (hinv.sound e.name f ((habs e.name).symm.trans hf)).valid.no_nul
    | notFound hop => rcases hop with hop | hop | ⟨mode, hop⟩ <;> cases hop
  · subst hload
    cases hp with
    | forbidden hne hname => exact readDownload_simple hforbidden hstream
    | downloaded us hname hf =>
      have hlen := hread.short
      simp only [Message.body, BridgeReplies.fileBody, writeU64, List.length_append,
        BigEndian.toBytes_length] at hlen
      exact readDownload_file us (by omega) hstream
    | notFound hop => exact readDownload_simple hnotFound hstream
  · refine readSimpleResult_tells ?_ hstream
    cases hp with
    | forbidden hne hname => exact hforbidden
    | created => exact trivial
    | replaced => exact trivial
    | downloaded => exact absurd rfl (hload _)
    | listed => exact absurd rfl hlist
    | deleted => exact trivial
    | changed => exact trivial
    | notFound => exact hnotFound

/-- The server has performed the operation, and the command has printed and saved its answer
or failed. -/
def Performed (host : Host) (m : FileMap) (op : Operation) (out : Output) (s : Server)
    (r : Option Result) : Prop :=
  ∃ msg m', Performs host m op m' msg ∧ Abstracts (node s.files) m' ∧ Inv host s ∧
    (Failed r ∨ ∃ b, r = some b ∧ Shows out msg b)

theorem failed_some {b : Result} (h : Fails b) : Failed (some b) := by
  rintro _ ⟨⟩
  exact h

/-- A command fails and leaves at most its own request behind, or the server has performed
its operation. -/
theorem command_ends (hperm : ∀ kind mode, host.permits kind mode = true) (hinv : Inv host s)
    (habs : Abstracts (node s.files) m) (hop : c.sends disk = some op) (hshort : ¬ TooLong op)
    {r : Option Result} {d : Conn} {fd' : ℕ}
    (h : Talks host fd' (c.run fd io out disk) { server := s } r d) :
    (Failed r ∧ d.server = s ∧ (d.abandoned = [] ∨ ∃ w, d.abandoned = [w] ∧ Began w op)) ∨
      (d.abandoned = [] ∧ Performed host m op out d.server r) := by
  have hanswer : ∀ frame bytes t, ServedAs frame op → Handles host s frame bytes t →
      ∀ stream, stream <+: bytes → Always (fun r _ => Performed host m op out t (some r))
        (c.run fd io out disk) stream := by
    intro frame bytes t hserved hhandles stream hstream
    obtain ⟨msg, m', hp, hread, rfl, habs', hinv'⟩ := hhandles.performs hperm hinv habs hserved
    refine (command_tells hop hshort hinv habs hp hread hstream).mono fun r _ hr => ?_
    refine ⟨msg, m', hp, habs', hinv', ?_⟩
    rcases hr with hshows | hfails
    · exact Or.inr ⟨r, rfl, hshows⟩
    · exact Or.inl (failed_some hfails)
  rcases h.phases (command_writes hop hshort) (Or.inl rfl) (command_fails hop hshort) hanswer with
    ⟨hserver, hno, hfails, hwritten⟩ | ⟨hanswered, hended, frame, bytes, hserved, hhandles⟩
  · refine Or.inl ⟨hfails, hserver, ?_⟩
    unfold Conn.abandoned
    rcases hwritten with hnil | ⟨frame, hserved, hpart⟩
    · exact Or.inl (if_pos (Or.inr hnil))
    · by_cases hnil : d.written = []
      · exact Or.inl (if_pos (Or.inr hnil))
      · refine Or.inr ⟨d.written, if_neg ?_, frame, hserved, hpart⟩
        rw [hno]
        exact not_or.mpr ⟨Bool.false_ne_true, hnil⟩
  · refine Or.inr ⟨if_pos (Or.inl hanswered), ?_⟩
    cases r with
    | none =>
      -- killed with the answer on its way
      obtain ⟨msg, m', hp, -, -, habs', hinv'⟩ := hhandles.performs hperm hinv habs hserved
      exact ⟨msg, m', hp, habs', hinv', Or.inl (by rintro _ ⟨⟩)⟩
    | some b => exact hended b rfl

end Commands

section Invocations
variable {host : Host} {s s' : Session} {x : Invocation} {e : Event} {l : Ledger} {disk : Disk}

theorem leaves_of_failed (h : Failed x.result) (hdisk : Leaves x s.disk disk) : disk = s.disk := by
  have hsaved : x.result.bind Result.saved = none := by
    cases hresult : x.result with
    | none => rfl
    | some r => exact (h r hresult).2.1
  unfold Leaves at hdisk
  rw [hsaved] at hdisk
  cases hcommand : x.command with
  | none =>
    rw [hcommand] at hdisk
    exact hdisk
  | some c =>
    rw [hcommand] at hdisk
    cases c <;> exact hdisk

theorem alone_fails {fd : ℕ} {c : Conn} {r : Result} (hr : Fails r)
    (hp : Talks host fd (.ret r) { server := s.server } x.result c) :
    Failed x.result ∧ c = { server := s.server } := by
  obtain ⟨hresult, rfl⟩ := hp
  exact ⟨hresult ▸ failed_some hr, rfl⟩

theorem usage_fails (program : Bytes) : Fails ⟨1, usage program, none⟩ := by
  refine ⟨rfl, rfl, fun line hline => ?_⟩
  simp only [usage, List.mem_cons, List.not_mem_nil, or_false] at hline
  rcases hline with rfl | rfl | rfl | rfl | rfl | rfl <;> exact ⟨_, rfl⟩

/-- The client closes its connection in the end, if it comes to it. -/
theorem talks_close {fd fd' : ℕ} {p : Prog Result} {c c' : Conn} {r : Option Result}
    (h : Talks host fd (p >>= fun result => sockClose fd' >>= fun _ => .ret result) c r c') :
    Talks host fd p c r c' := by
  rcases h.bind_inv with ⟨rfl, hkilled⟩ | ⟨a, m, hrun, -, rfl, rfl⟩
  · exact hkilled
  · exact hrun

theorem connect_complains {connection : Connection} {line : Line}
    (h : connectToServer connection = .error line) : ∃ text, line = .complaint text := by
  cases connection <;> cases h <;> exact ⟨_, rfl⟩

/-- An invocation comes to a command of its own, or it fails and leaves the server alone. -/
theorem invokes_cases {fd : ℕ} {c : Conn}
    (h : Talks host fd (main x.argv x.connection x.io x.out s.disk) { server := s.server }
      x.result c) :
    (Failed x.result ∧ c = { server := s.server }) ∨
      ∃ command fd', x.command = some command ∧
        Talks host fd (command.run fd' x.io x.out s.disk) { server := s.server } x.result c := by
  unfold main at h
  unfold Invocation.command
  split at h
  · cases hconnect : connectToServer x.connection with
    | error line =>
      rw [hconnect] at h
      refine Or.inl (alone_fails ⟨rfl, rfl, fun l hl => ?_⟩ h)
      rw [List.mem_singleton.mp hl]
      exact connect_complains hconnect
    | ok fd' =>
      rw [hconnect] at h
      have hperform := talks_close h
      cases hcommand : commandOf _ _ with
      | none =>
        rw [hcommand] at hperform
        exact Or.inl (alone_fails (fails_complaint _) hperform)
      | some command =>
        rw [hcommand] at hperform
        exact Or.inr ⟨command, fd', rfl, hperform⟩
  · exact Or.inl (alone_fails (usage_fails _) h)

/-- The ledger that a session has come to. -/
structure Reached (host : Host) (s : Session) (l : Ledger) : Prop where
  disk : l.disk = s.disk
  files : Abstracts (node s.server.files) l.files
  inv : Inv host s.server
  pending : List.Forall₂ Began s.abandoned l.pending

/-- The events of a session whose requests fit. -/
abbrev Invoked (host : Host) : Session → Event → Session → Prop :=
  Where (Happens host) fun s e _ => Fitting s e

/-- What a client has left behind is one of the operations that are pending. -/
theorem forall₂_split {R : Bytes → Operation → Prop} {before after : List Bytes} {w : Bytes}
    {ops : List Operation} (h : List.Forall₂ R (before ++ w :: after) ops) :
    ∃ earlier op later, ops = earlier ++ op :: later ∧ R w op ∧
      List.Forall₂ R (before ++ after) (earlier ++ later) := by
  induction before generalizing ops with
  | nil =>
    obtain ⟨op, later, hop, hlater, rfl⟩ := List.forall₂_cons_left_iff.mp h
    exact ⟨[], op, later, rfl, hop, hlater⟩
  | cons v before ih =>
    obtain ⟨first, rest, hfirst, hrest, rfl⟩ := List.forall₂_cons_left_iff.mp h
    obtain ⟨earlier, op, later, rfl, hop, hboth⟩ := ih hrest
    exact ⟨first :: earlier, op, later, rfl, hop, .cons hfirst hboth⟩

theorem Reached.late (hperm : ∀ kind mode, host.permits kind mode = true) {server server' : Server}
    {before after : List Bytes} {written bytes : Bytes}
    (hm : Reached host ⟨disk, server, before ++ written :: after⟩ l)
    (hhandles : Handles host server written bytes server') :
    ∃ l', Does host l (.late written) l' ∧ Reached host ⟨disk, server', before ++ after⟩ l' := by
  obtain ⟨earlier, op, later, hpending, ⟨frame, hserved, hpart⟩, hrest⟩ := forall₂_split hm.pending
  have hwhole := hhandles.written_eq hserved hpart
  subst hwhole
  obtain ⟨msg, m', hp, -, -, habs', hinv'⟩ := hhandles.performs hperm hm.inv hm.files hserved
  obtain ⟨disk, files, pending⟩ := l
  dsimp only at hpending hp
  subst hpending
  exact ⟨_, .late hserved hp, hm.disk, habs', hinv', hrest⟩

theorem Reached.invoked (hperm : ∀ kind mode, host.permits kind mode = true)
    (hm : Reached host s l) {fd : ℕ} {c : Conn} (hfits : Fitting s (.invoked x))
    (htalks : Talks host fd (main x.argv x.connection x.io x.out s.disk) { server := s.server }
      x.result c) (hdisk : Leaves x s.disk disk) :
    ∃ l', Does host l (.invoked x) l' ∧
      Reached host ⟨disk, c.server, c.abandoned ++ s.abandoned⟩ l' := by
  have hsame : Failed x.result → c.server = s.server → c.abandoned = [] →
      ∃ l', Does host l (.invoked x) l' ∧
        Reached host ⟨disk, c.server, c.abandoned ++ s.abandoned⟩ l' := by
    intro hfails hserver hnone
    rw [leaves_of_failed hfails hdisk, hserver, hnone]
    exact ⟨l, .nothing hfails, hm⟩
  rcases invokes_cases htalks with ⟨hfails, rfl⟩ | ⟨command, fd', hcommand, hrun⟩
  · exact hsame hfails rfl rfl
  cases hop : command.sends s.disk with
  | none =>
    rw [run_unopened hop] at hrun
    obtain ⟨hfails, rfl⟩ := alone_fails (fails_complaint _) hrun
    exact hsame hfails rfl rfl
  | some op =>
    have hasks : x.Asks s.disk op := ⟨command, hcommand, asks_of_sends hop⟩
    have hasks' : x.Asks l.disk op := hm.disk ▸ hasks
    rcases command_ends hperm hm.inv hm.files hop (hfits op hasks) hrun with
      ⟨hfails, hserver, hnone | ⟨w, hw, hbegan⟩⟩ |
        ⟨hnone, msg, m', hp, habs', hinv', hfails | ⟨r, hr, hshows⟩⟩
    · exact hsame hfails hserver hnone
    · rw [leaves_of_failed hfails hdisk, hserver, hw]
      exact ⟨_, .left hasks' hfails, hm.disk, hm.files, hm.inv, .cons hbegan hm.pending⟩
    · rw [leaves_of_failed hfails hdisk, hnone]
      exact ⟨_, .unheard hasks' hp hfails, hm.disk, habs', hinv', hm.pending⟩
    · rw [hnone]
      exact ⟨_, .told hasks' hp hr hshows (hm.disk ▸ hdisk), rfl, habs', hinv', hm.pending⟩

theorem Reached.step (hperm : ∀ kind mode, host.permits kind mode = true) (hm : Reached host s l)
    (h : Invoked host s e s') : ∃ l', Does host l e l' ∧ Reached host s' l' := by
  obtain ⟨hhappens, hfits⟩ := h
  cases hhappens with
  | invoked htalks hdisk => exact hm.invoked hperm hfits htalks hdisk
  | late hhandles => exact hm.late hperm hhandles

theorem Reached.run (hperm : ∀ kind mode, host.permits kind mode = true) {es : List Event}
    (hm : Reached host s l) (h : Run (Invoked host) s es s') :
    ∃ l', Run (Does host) l es l' ∧ Reached host s' l' :=
  h.lockstep (fun _ _ _ _ hm hstep => hm.step hperm hstep) hm

theorem reached_start : Reached host { disk := disk } { disk := disk } :=
  ⟨rfl, fun _ => rfl, inv_start, .nil⟩

/-- A session with the server is one with the maps. -/
theorem sessions_refine (hperm : ∀ kind mode, host.permits kind mode = true) {es : List Event}
    (h : Run (Invoked host) { disk := disk } es s) :
    ∃ l, Run (Does host) { disk := disk } es l ∧ Reached host s l :=
  reached_start.run hperm h

/-- The event may change the contents of the remote file. -/
def Overwrites (name : Bytes) : Event → Prop
  | .invoked x => ∃ localFile, x.command = some (.upload localFile name) ∨
    x.command = some (.delete name)
  | .late written => ∃ op, ServedAs written op ∧ ChangesContents name op

theorem not_changesContents {name : Bytes} {op : Operation} (h : ¬ Overwrites name (.invoked x))
    (hop : x.Asks disk op) : ¬ ChangesContents name op := by
  obtain ⟨command, hcommand, hasks⟩ := hop
  intro hchanges
  cases hasks with
  | @upload localFile remoteName file hfile =>
    have hname : remoteName = name := hchanges
    exact h ⟨localFile, Or.inl (hname ▸ hcommand)⟩
  | delete remoteName =>
    have hname : remoteName = name := hchanges
    exact h ⟨[], Or.inr (hname ▸ hcommand)⟩
  | _ => exact hchanges

theorem Does.contents {l l' : Ledger} {name : Bytes} {f : File} (h : Does host l e l')
    (hkeep : ¬ Overwrites name e) (hf : l.files.lookup name = some f) :
    ∃ g, l'.files.lookup name = some g ∧ g.bytes = f.bytes := by
  cases h with
  | nothing => exact ⟨f, hf, rfl⟩
  | left => exact ⟨f, hf, rfl⟩
  | unheard hop hp => exact performs_contents hp (not_changesContents hkeep hop) hf
  | told hop hp => exact performs_contents hp (not_changesContents hkeep hop) hf
  | late hserved hp => exact performs_contents hp (fun h => hkeep ⟨_, hserved, h⟩) hf

theorem contents_of_run {l l' : Ledger} {es : List Event} {name : Bytes} {f : File}
    (h : Run (Does host) l es l') (hkeep : ∀ e ∈ es, ¬ Overwrites name e)
    (hf : l.files.lookup name = some f) :
    ∃ g, l'.files.lookup name = some g ∧ g.bytes = f.bytes := by
  refine (h.where_of_mem hkeep).invariant
    (I := fun l => ∃ g, l.files.lookup name = some g ∧ g.bytes = f.bytes) ⟨f, hf, rfl⟩ ?_
  rintro l e l' ⟨g, hg, hbytes⟩ ⟨hdoes, he⟩
  obtain ⟨g', hg', hbytes'⟩ := hdoes.contents he hg
  exact ⟨g', hg', hbytes'.trans hbytes⟩

theorem Does.succeeded {l l' : Ledger} (h : Does host l (.invoked x) l')
    (hstatus : x.status = some 0) : ∃ op msg r, x.Asks l.disk op ∧
      Performs host l.files op l'.files msg ∧ x.result = some r ∧ r.rc = 0 ∧
      Shows x.out msg r ∧ Leaves x l.disk l'.disk := by
  obtain ⟨r, hr, hrc⟩ := Option.map_eq_some_iff.mp hstatus
  have hsuccess : ¬ Failed x.result := by
    intro hfails
    rw [(hfails r hr).1] at hrc
    cases hrc
  cases h with
  | nothing h => exact absurd h hsuccess
  | left hop h => exact absurd h hsuccess
  | unheard hop hp h => exact absurd h hsuccess
  | told hop hp hr' h hdisk =>
    rw [hr] at hr'
    cases hr'
    exact ⟨_, _, r, hop, hp, hr, hrc, h, hdisk⟩

theorem not_shows_error {out : Output} {errCode : UInt16} {text : Bytes} {r : Result}
    (hrc : r.rc = 0) : ¬ Shows out (.error errCode text) r := by
  intro h
  have hr : r = ⟨1, [.error errCode text], none⟩ := h
  rw [hr] at hrc
  cases hrc

theorem Does.uploads {l l' : Ledger} {localFile remoteName : Bytes}
    (h : Does host l (.invoked x) l')
    (hcommand : x.command = some (.upload localFile remoteName)) (hstatus : x.status = some 0) :
    ∃ file, l.disk localFile = some file ∧
      ∃ f, l'.files.lookup remoteName = some f ∧ f.bytes = file.content := by
  obtain ⟨op, msg, r, ⟨command, hsame, hasks⟩, hp, -, hrc, hshows, -⟩ := h.succeeded hstatus
  rw [hcommand] at hsame
  cases hsame
  cases hasks with
  | @upload _ _ file hfile =>
    refine ⟨file, hfile, ?_⟩
    generalize l'.files = files at hp
    cases hp with
    | forbidden => exact absurd hshows (not_shows_error hrc)
    | created => exact ⟨_, Finmap.lookup_insert _, rfl⟩
    | replaced => exact ⟨_, Finmap.lookup_insert _, rfl⟩
    | notFound hop => rcases hop with hop | hop | ⟨mode, hop⟩ <;> cases hop

theorem Does.downloads {l l' : Ledger} {remoteName target : Bytes} {f : File}
    (h : Does host l (.invoked x) l')
    (hcommand : x.command = some (.download remoteName target)) (hstatus : x.status = some 0)
    (hf : l.files.lookup remoteName = some f) :
    ∃ saved : LocalFile, l'.disk = Function.update l.disk target (some saved) ∧
      saved.content = f.bytes.take x.out.written := by
  obtain ⟨op, msg, r, ⟨command, hsame, hasks⟩, hp, hr, hrc, hshows, hleaves⟩ :=
    h.succeeded hstatus
  rw [hcommand] at hsame
  cases hsame
  cases hasks with
  | download =>
    generalize l'.files = files at hp
    cases hp with
    | forbidden => exact absurd hshows (not_shows_error hrc)
    | downloaded us hname hlookup =>
      rw [hf] at hlookup
      cases hlookup
      have hsaved : x.result.bind Result.saved = some (f.bytes.take x.out.written) := by
        rw [hr]
        exact congrArg Result.saved hshows
      unfold Leaves at hleaves
      rw [hcommand, hsaved] at hleaves
      obtain ⟨saved, hcontent, hdisk⟩ := hleaves
      exact ⟨saved, hdisk, hcontent⟩
    | notFound => exact absurd hshows (not_shows_error hrc)

/-- A download that succeeds has what the upload of the name before it has sent, unless the
remote file was uploaded again or deleted in between, also for a client that was gone by then;
only the file it saves has changed. -/
theorem upload_returns (hperm : ∀ kind mode, host.permits kind mode = true)
    {before between : List Event} {up down : Invocation} {s₁ s₂ s₃ s₄ : Session}
    {localFile target remoteName : Bytes} (hbefore : Run (Invoked host) { disk := disk } before s₁)
    (hup : Invoked host s₁ (.invoked up) s₂) (hbetween : Run (Invoked host) s₂ between s₃)
    (hdown : Invoked host s₃ (.invoked down) s₄)
    (hupload : up.command = some (.upload localFile remoteName)) (hsent : up.status = some 0)
    (hkeep : ∀ e ∈ between, ¬ Overwrites remoteName e)
    (hdownload : down.command = some (.download remoteName target))
    (hgot : down.status = some 0) :
    ∃ file saved : LocalFile, s₁.disk localFile = some file ∧
      s₄.disk = Function.update s₃.disk target (some saved) ∧
      saved.content = file.content.take down.out.written := by
  obtain ⟨l₁, -, hm₁⟩ := reached_start.run hperm hbefore
  obtain ⟨l₂, hdid, hm₂⟩ := hm₁.step hperm hup
  obtain ⟨l₃, hrun, hm₃⟩ := hm₂.run hperm hbetween
  obtain ⟨l₄, hdoes, hm₄⟩ := hm₃.step hperm hdown
  obtain ⟨file, hfile, f, hf, hbytes⟩ := hdid.uploads hupload hsent
  obtain ⟨g, hg, hsame⟩ := contents_of_run hrun hkeep hf
  obtain ⟨saved, hdisk, hcontent⟩ := hdoes.downloads hdownload hgot hg
  refine ⟨file, saved, hm₁.disk ▸ hfile, ?_, by rw [hcontent, hsame, hbytes]⟩
  rw [← hm₃.disk, ← hm₄.disk]
  exact hdisk

end Invocations

def sampleDisk : Disk := fun path =>
  if path = asciiBytes "f" then some ⟨[1, 2], by decide⟩ else none

def sampleInvocation (args : List Bytes) (result : Option Result) : Invocation where
  argv := [asciiBytes "nervfs_client", asciiBytes "127.0.0.1", asciiBytes "9000"] ++ args
  connection := .connected 3
  io := ⟨true, true, 2⟩
  out := ⟨true, 2⟩
  result := result

def uploading : Invocation :=
  sampleInvocation [asciiBytes "upload", asciiBytes "f", asciiBytes "a"]
    (some ⟨0, [.okMetrics 0 0 0 0], none⟩)

def listing : Invocation :=
  sampleInvocation [asciiBytes "list"] (some ⟨0, [.count 1 0, .entry [0x61] 2 0o644], none⟩)

def downloading : Invocation :=
  sampleInvocation [asciiBytes "download", asciiBytes "a", asciiBytes "g"]
    (some ⟨0, [.downloaded 2 0], some [1, 2]⟩)

def brokenDelete : Invocation :=
  sampleInvocation [asciiBytes "delete", asciiBytes "a"] (some ⟨1, [noHeader], none⟩)

def deleteFrame : Bytes :=
  serializeHeader (requestHeader opReqDelete (UInt32.ofNat (namePayload [0x61]).length)) ++
    namePayload [0x61]

def uploadedSession : Session := { disk := sampleDisk, server := sampleStored }

def savedDisk : Disk := Function.update sampleDisk (asciiBytes "g") (some ⟨[1, 2], by decide⟩)

def downloadedSession : Session := { disk := savedDisk, server := sampleStored }

def brokenSession : Session :=
  { disk := savedDisk, server := sampleStored, abandoned := [deleteFrame] }

def deletedServer : Server where
  files := AList.insert [0x61] { gone := [⟨[1, 2], 0o644⟩], current := none } ∅

theorem handles_plain {host : Host} {s s' t : Server} {opcode : UInt16}
    {payload bytes sent : Bytes} {sends : List Transfer}
    (hordinary : Ordinary s (plainRequest 5 opcode payload))
    (hrespond : respond host s (plainRequest 5 opcode payload) = some (t, bytes))
    (hleft : respond host s (takenAs sends (plainRequest 5 opcode payload)) = some (s', sent)) :
    Handles host s (serializeHeader (requestHeader opcode (UInt32.ofNat payload.length)) ++ payload)
      bytes s' := by
  have hsize := serializeHeader_length (requestHeader opcode (UInt32.ofNat payload.length))
  refine ⟨_, _, _, _, ⟨?_, ?_, ?_⟩, hordinary, hrespond, hleft⟩
  · rw [List.length_append, hsize]
    omega
  · rw [List.take_left' hsize, ← List.append_nil (serializeHeader _)]
    exact parseHeader_serializeHeader _ [] rfl rfl
  · exact (List.drop_left' hsize).symm

theorem happens_unbroken {host : Host} (fd : ℕ) {disk disk' : Disk} {server server' : Server}
    {x : Invocation} {r : Result} {opcode : UInt16} {payload bytes : Bytes}
    (hordinary : Ordinary server (plainRequest 5 opcode payload))
    (hrespond : respond host server (plainRequest 5 opcode payload) = some (server', bytes))
    (hresult : x.result = some r)
    (hrun : (unbroken fd (serializeHeader (requestHeader opcode (UInt32.ofNat payload.length)) ++
      payload) bytes server' (main x.argv x.connection x.io x.out disk)
        { server := server }).map (fun q => (q.1, q.2.server, q.2.abandoned)) =
          some (r, server', []))
    (hdisk : Leaves x disk disk') :
    Happens host { disk := disk, server := server } (.invoked x)
      { disk := disk', server := server' } := by
  obtain ⟨⟨b, c⟩, hruns, hends⟩ := Option.map_eq_some_iff.mp hrun
  have hb : b = r := congrArg Prod.fst hends
  have hserver : c.server = server' := congrArg (fun q => q.2.1) hends
  have hnone : c.abandoned = [] := congrArg (fun q => q.2.2) hends
  have htalks := talks_of_unbroken (handles_plain hordinary hrespond hrespond) (fun _ => rfl) hruns
  rw [hb, ← hresult] at htalks
  have hhappens : Happens host ⟨disk, server, []⟩ (.invoked x) _ := .invoked htalks hdisk
  rwa [hserver, hnone] at hhappens

theorem fitting_of_name {s : Session} {x : Invocation} {c : Command} (hcommand : x.command = some c)
    (h : ∀ op, c.Asks s.disk op → ¬ TooLong op) : Fitting s (.invoked x) := by
  rintro op ⟨command, hsame, hasks⟩
  rw [hcommand] at hsame
  cases hsame
  exact h op hasks

theorem uploading_step : Invoked sampleHost { disk := sampleDisk } (.invoked uploading)
    uploadedSession := by
  have hstored : respond sampleHost {} (plainRequest 5 opReqUpload (uploadPayload [0x61] [1, 2])) =
      some (sampleStored, frame opRespOk 0 (metricsBody 0 0 0)) := rfl
  refine ⟨happens_unbroken 3 (plainRequest_ordinary (by decide) (by decide)) hstored rfl rfl rfl,
    fitting_of_name (c := .upload (asciiBytes "f") (asciiBytes "a")) rfl ?_⟩
  intro op hop
  cases hop with
  | upload hfile =>
    cases hfile
    unfold TooLong
    decide

theorem listing_step : Invoked sampleHost uploadedSession (.invoked listing) uploadedSession := by
  have hordinary : Ordinary sampleStored (plainRequest 5 opReqList []) :=
    ⟨rfl, by constructor <;> exact nofun, fun _ => by decide⟩
  have hlisted : respond sampleHost sampleStored (plainRequest 5 opReqList []) = some
      (sampleStored, frame opRespListData 0 (listBody [⟨[0x61], 2, 0o644⟩])) := rfl
  refine ⟨happens_unbroken 3 hordinary hlisted rfl rfl rfl, fitting_of_name (c := .list) rfl ?_⟩
  intro op hop
  cases hop
  exact not_tooLong_list

theorem downloading_step :
    Invoked sampleHost uploadedSession (.invoked downloading) downloadedSession := by
  have hloaded : respond sampleHost sampleStored
      (plainRequest 5 opReqDownload (namePayload [0x61])) =
        some (sampleStored, fileFrame 0 [1, 2]) := rfl
  refine ⟨happens_unbroken 3 (plainRequest_ordinary (by decide) (by decide)) hloaded rfl rfl
    ⟨_, rfl, rfl⟩,
    fitting_of_name (c := .download (asciiBytes "a") (asciiBytes "g")) rfl ?_⟩
  intro op hop
  cases hop
  unfold TooLong
  decide

/-- The whole request is on the connection, which breaks before the answer. -/
theorem brokenDelete_step :
    Invoked sampleHost downloadedSession (.invoked brokenDelete) brokenSession := by
  have htalks : Talks sampleHost 3 (main brokenDelete.argv brokenDelete.connection brokenDelete.io
      brokenDelete.out savedDisk) { server := sampleStored } brokenDelete.result
      ⟨sampleStored, deleteFrame, some [], false⟩ := by
    -- header and payload are written whole, and the first read fails
    exact ⟨true, rfl, Or.inr (Or.inr ⟨⟨16, by decide, by decide⟩, rfl,
      Or.inr (Or.inr ⟨⟨3, by decide, by decide⟩, rfl, _, .part rfl, Or.inl ⟨rfl, rfl, rfl⟩⟩)⟩)⟩
  have hdisk : Leaves brokenDelete savedDisk savedDisk := rfl
  have hhappens : Happens sampleHost downloadedSession (.invoked brokenDelete) _ :=
    .invoked htalks hdisk
  refine ⟨hhappens, fitting_of_name (c := .delete (asciiBytes "a")) rfl ?_⟩
  intro op hop
  cases hop
  unfold TooLong
  decide

theorem late_step : Invoked sampleHost brokenSession (.late deleteFrame)
    { disk := savedDisk, server := deletedServer } := by
  have hdeleted : respond sampleHost sampleStored
      (plainRequest 5 opReqDelete (namePayload [0x61])) =
        some (deletedServer, frame opRespOk 0 []) := rfl
  -- its client takes nothing of the answer
  have hunheard : respond sampleHost sampleStored (takenAs [.error, .error]
      (plainRequest 5 opReqDelete (namePayload [0x61]))) = some (deletedServer, []) := rfl
  have hhandles : Handles sampleHost sampleStored deleteFrame _ deletedServer :=
    handles_plain (plainRequest_ordinary (by decide) (by decide)) hdeleted hunheard
  have hhappens : Happens sampleHost ⟨savedDisk, sampleStored, [] ++ deleteFrame :: []⟩
      (.late deleteFrame) ⟨savedDisk, deletedServer, [] ++ []⟩ := .late hhandles
  exact ⟨hhappens, trivial⟩

/-- A file is uploaded, listed and saved under another name; a deletion, whose client has gone
before the answer, reaches the server later. -/
theorem sessions_refine_late : ∃ l,
    Run (Does sampleHost) { disk := sampleDisk } [.invoked uploading, .invoked listing,
        .invoked downloading, .invoked brokenDelete, .late deleteFrame] l ∧
      Reached sampleHost { disk := savedDisk, server := deletedServer } l :=
  sessions_refine (fun _ _ => rfl) (.cons uploading_step (.cons listing_step
    (.cons downloading_step (.cons brokenDelete_step (.single late_step)))))

theorem upload_returns_saved : ∃ file saved : LocalFile,
    sampleDisk (asciiBytes "f") = some file ∧
      savedDisk = Function.update sampleDisk (asciiBytes "g") (some saved) ∧
      saved.content = file.content.take 2 := by
  refine upload_returns (fun _ _ => rfl) .nil uploading_step
    (.single listing_step) downloading_step rfl rfl (fun e he => ?_) rfl rfl
  rw [List.mem_singleton.mp he]
  rintro ⟨localFile, h | h⟩ <;> cases h

end NervFS.Terminal
