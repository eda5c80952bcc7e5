import NervFS.WholeFiles

/-!
How an upload or a download visits its file. It runs up to a first call that truncates the
file or takes its size; from that call on, until its last access, the file must not change
under it. Before and after that window the handler depends on no content.
-/
namespace NervFS.Visits

open Programs KeyedStore KeyedStore.Semantics Calls Protocol FileOps Handlers Requests Kernel
open Responses Alone FailedUploads Workers WholeFiles Sections

/-- Where a handler stands with respect to its file: before its open, between the open and
the `fstat` of a download, in its window, or done with the file. -/
inductive Stage
  | ahead
  | found
  | within (m : Mode)
  | done

/-- Calls that leave every file alone. -/
def Quiet : Call → Prop
  | .clockGettime | .malloc _ | .lockAcquire _ _ | .lockRelease _ _ | .mmap _ _ | .munmap _
  | .setlkw _ _ | .unlck _ | .fsync _ | .close _ | .sockWrite _ (.memory _) | .dispatch _ => True
  | _ => False

/-- The accesses that a handler makes to the file `n` in each stage. -/
def visits (host : Host) (n : Bytes) : Discipline Call Reply Stage where
  admits stage e :=
    match e with
    | .openRead path => stage = .ahead ∧ resolve host.root path = some n
    | .openWrite path => stage = .ahead ∧ resolve host.root path = some n
    | .fstat file => stage = .found ∧ file.ino.name = n
    | .write file _ => stage = .within .exclusive ∧ file.ino.name = n
    | .sockWrite _ (.mapped map _ _) => (∃ m, stage = .within m) ∧ map.ino.name = n
    | e => Quiet e
  replies := repliesOf host
  next stage e r :=
    match e, r with
    | .openRead _, some _ => .found
    | .openRead _, none => .done
    | .openWrite _, some _ => .within .exclusive
    | .openWrite _, none => .done
    | .fstat _, some _ => .within .shared
    | .fstat _, none => .done
    | _, _ => stage

/-- A handler that has found its file goes on to take its size. -/
abbrev Visit (host : Host) (n : Bytes) (stage : Stage) (p : Prog Unit) : Prop :=
  Obeys (visits host n) (fun stage _ => stage ≠ .found) stage p

section Program
variable {host : Host} {n : Bytes} {fd : ℕ} {stage : Stage}

theorem quiet_idle {e : Call} (h : Quiet e) : Idle ((semantics host).role e) := by
  cases e with
  | lockAcquire kind name => exact idle_acquire rfl
  | lockRelease kind name => exact idle_release rfl
  | sockWrite fd buf =>
    cases buf with
    | memory bytes => exact idle_own rfl
    | mapped map off len => exact h.elim
  | _ => first | exact idle_own rfl | exact h.elim

/-- A quiet call is admitted in every stage and leaves the handler there. -/
theorem quiet_visits {e : Call} (h : Quiet e) (stage : Stage) :
    (visits host n).admits stage e ∧ ∀ r, (visits host n).next stage e r = stage := by
  cases e with
  | sockWrite fd buf =>
    cases buf with
    | memory bytes => exact ⟨trivial, fun _ => rfl⟩
    | mapped map off len => exact h.elim
  | _ => first | exact ⟨trivial, fun _ => rfl⟩ | exact h.elim

theorem Visit.quiet_bind {α : Type} {p : Prog α} {f : α → Prog Unit} (hp : p.All Quiet)
    (hf : ∀ a, Visit host n stage (f a)) : Visit host n stage (p >>= f) :=
  Obeys.all_bind hp (fun _ he => (quiet_visits he stage).1)
    (fun _ r he => (quiet_visits he stage).2 r) hf

theorem Visit.all_quiet {p : Prog Unit} (hs : stage ≠ .found) (hp : p.All Quiet) :
    Visit host n stage p :=
  Obeys.of_all hp (fun _ he => (quiet_visits he stage).1)
    (fun _ r he => (quiet_visits he stage).2 r) fun _ => hs

theorem Visit.quiet {e : Call} {f : Reply e → Prog Unit} (he : Quiet e)
    (hf : ∀ r, repliesOf host e r → Visit host n stage (f r)) :
    Visit host n stage (invoke e >>= f) :=
  ⟨(quiet_visits he stage).1, fun r hr => by
    rw [(quiet_visits he stage).2 r]
    exact hf r hr⟩

theorem sendsError_quiet {e : Call} (h : SendsError fd e) : Quiet e := by
  rcases h with ⟨bytes, rfl⟩ | ⟨size, rfl⟩ <;> trivial

theorem sendError_quiet (errCode : UInt16) (msg : Bytes) (hmsg : msg.length < 65536) :
    (sendError fd errCode msg).All Quiet :=
  (sendError_all fd errCode msg hmsg).mono fun _ => sendsError_quiet

theorem sendFull_quiet (bytes : Bytes) : (sendFull fd (.memory bytes)).All Quiet :=
  (sendFull_memory_all fd bytes).mono fun _ he => sendsError_quiet (Or.inl he)

theorem closeMmap_quiet (map : Option Mapping) (size : ℕ) (file : Fd) :
    (fileopsCloseMmap map size file).All Quiet := by
  unfold fileopsCloseMmap
  cases map with
  | none => exact ⟨trivial, fun _ => trivial⟩
  | some m =>
    dsimp only
    split
    · exact ⟨trivial, fun _ => ⟨trivial, fun _ => trivial⟩⟩
    · exact ⟨trivial, fun _ => trivial⟩

theorem refuse_visits (hs : stage ≠ .found) (kind : LockKind) (name : Bytes) (errCode : UInt16)
    (msg : Bytes)
    (hmsg : msg.length < 65536) :
    Visit host n stage (invoke (.lockRelease kind name) >>= fun _ => sendError fd errCode msg) :=
  Visit.quiet trivial fun _ _ => Visit.all_quiet hs (sendError_quiet errCode msg hmsg)

theorem uploadLocked_visits (body : Bytes) (fileSize networkUs : UInt64) :
    Visit host n .ahead
      (uploadLocked fd (joinPath host.root n) n body fileSize networkUs) := by
  simp only [uploadLocked, Program.pure_eq, Program.bind_unit]
  refine Visit.quiet trivial fun writeStart _ => ⟨⟨rfl, resolve_joinPath ..⟩, fun opened hr => ?_⟩
  cases opened with
  | none => exact refuse_visits (by intro heq; cases heq) .write n _ msgOpenFailed (by decide)
  | some file =>
    have hfile : file.ino.name = n := name_of_opened (hr file rfl)
    change Visit host n (.within .exclusive) (invoke (.setlkw file .write) >>= _)
    refine Visit.quiet trivial fun locked _ => ?_
    cases locked with
    | false =>
      exact Visit.quiet trivial fun _ _ =>
        refuse_visits (by intro heq; cases heq) .write n _ msgLockFailed (by decide)
    | true =>
      refine ⟨⟨rfl, hfile⟩, fun written _ => ?_⟩
      refine Visit.quiet trivial fun writeEnd _ => ?_
      change Visit host n (.within .exclusive) (if _ then _ else _)
      split
      · exact Visit.quiet trivial fun _ _ => Visit.quiet trivial fun _ _ =>
          refuse_visits (by intro heq; cases heq) .write n _ msgWriteFailed (by decide)
      · refine Visit.quiet trivial fun _ _ => Visit.quiet trivial fun syncEnd _ => ?_
        refine Visit.quiet trivial fun _ _ => Visit.quiet trivial fun _ _ => ?_
        refine Visit.quiet trivial fun _ _ => Visit.all_quiet (by intro heq; cases heq) ?_
        refine (sendMessage_all _ _ _ _ _ ?_).mono fun _ he => sendsError_quiet (Or.inl he)
        rintro buf ⟨⟩
        simp [writeU64]

theorem downloadBody_visits (map : Option Mapping) (size : ℕ) (file : Fd) (us : UInt64)
    (hmap : ∀ m ∈ map, m.ino.name = n) :
    Visit host n (.within .shared) (downloadBody fd n map size file us) := by
  have hclose : Visit host n (.within .shared) (fileopsUnlockFd file >>= fun _ =>
      fileopsCloseMmap map size file >>= fun _ => fileopsLockReleaseRead n) :=
    Visit.quiet trivial fun _ _ => Visit.quiet_bind (closeMmap_quiet map size file) fun _ =>
      Visit.all_quiet (by exact nofun) ⟨trivial, fun _ => trivial⟩
  unfold downloadBody
  refine Visit.quiet trivial fun _ _ => ?_
  refine Visit.quiet_bind (sendFull_quiet _) fun _ => ?_
  refine Visit.quiet_bind (sendFull_quiet _) fun _ => ?_
  cases map with
  | none => exact hclose
  | some m =>
    dsimp only
    split
    · have hsend : (sendFull fd (.mapped m 0 size)).All fun e =>
          ∃ off len, e = .sockWrite fd (.mapped m off len) :=
        sendFull_all fd _ fun i => ⟨_, _, rfl⟩
      refine Obeys.all_bind hsend ?_ ?_ fun _ => hclose
      · rintro _ ⟨off, len, rfl⟩
        exact ⟨⟨_, rfl⟩, hmap m rfl⟩
      · rintro _ _ ⟨off, len, rfl⟩
        rfl
    · exact hclose

theorem downloadLocked_visits :
    Visit host n .ahead (downloadLocked fd (joinPath host.root n) n) := by
  have hfail : ∀ (stage : Stage) (errCode : UInt16) (msg : Bytes), stage ≠ .found →
      msg.length < 65536 →
      Visit host n stage (clockGettime >>= fun _ => fileopsLockReleaseRead n >>= fun _ =>
        sendError fd errCode msg) := fun stage errCode msg hs hmsg =>
    Visit.quiet trivial fun _ _ => refuse_visits hs .read n errCode msg hmsg
  unfold downloadLocked fileopsOpenForMmapRead
  refine Visit.quiet trivial fun start _ => ⟨⟨rfl, resolve_joinPath ..⟩, fun opened hr => ?_⟩
  cases opened with
  | none => exact hfail .done _ msgNotFound nofun (by decide)
  | some file =>
    have hfile : file.ino.name = n := name_of_opened (hr file rfl)
    refine ⟨⟨rfl, hfile⟩, fun size _ => ?_⟩
    cases size with
    | none => exact Visit.quiet trivial fun _ _ => hfail .done _ msgNotFound nofun (by decide)
    | some size =>
      change Visit host n (.within .shared) ((if size = 0 then _ else _) >>= _)
      split
      · exact Visit.quiet trivial fun _ _ => downloadBody_visits _ _ _ _ nofun
      · refine Visit.quiet trivial fun map hmap => ?_
        cases map with
        | none =>
          exact Visit.quiet trivial fun _ _ => hfail _ _ msgMapFailed nofun (by decide)
        | some map =>
          refine Visit.quiet trivial fun _ _ => downloadBody_visits _ _ _ _ fun m hm => ?_
          cases hm
          rw [hmap map rfl]
          exact hfile

/-- The name in the payload of an upload or a download. -/
def targetOf (r : Request) : Bytes :=
  if r.header.opcode = opReqUpload then
    match uploadFields r.payload with
    | .ok (name, _) => name
    | .error _ => []
  else
    match nameField msgDownloadTooShort msgDownloadMalformed r.payload with
    | .ok name => name
    | .error _ => []

theorem namedOf_visits {γ : Type} {fields : Except Bytes (Bytes × γ)}
    {act : Bytes → Bytes → γ → Prog Unit} (hs : stage ≠ .found)
    (hmsg : ∀ msg, fields = .error msg → msg.length < 65536)
    (hact : ∀ name rest, fields = .ok (name, rest) →
      Visit host n stage (act (joinPath host.root name) name rest)) :
    Visit host n stage (namedOf host.root fd fields act) := by
  unfold namedOf
  cases fields with
  | error msg => exact Visit.all_quiet hs (sendError_quiet _ msg (hmsg msg rfl))
  | ok field =>
    obtain ⟨name, rest⟩ := field
    dsimp only
    cases hres : safeResolvePath host.root name pathMax with
    | none => exact Visit.all_quiet hs (sendError_quiet _ msgInvalidFilename (by decide))
    | some path =>
      obtain ⟨-, rfl⟩ := validName_of_safeResolvePath hres
      exact hact name rest rfl

theorem request_visits (r : Request) (hcomplete : r.Complete)
    (hop : r.header.opcode = opReqUpload ∨ r.header.opcode = opReqDownload) :
    Visit host (targetOf r) .ahead (r.prog host) := by
  unfold Request.prog dispatchRequestTimed targetOf
  refine Visit.quiet trivial fun _ _ => ?_
  rcases hop with hop | hop
  · rw [if_pos hop, if_pos hop, handleUploadTimed_eq _ _ _ _ _ hcomplete]
    refine Visit.quiet trivial fun netEnd _ =>
      namedOf_visits (by exact nofun) (fun _ => uploadFields_error_length) fun name body hf => ?_
    rw [hf]
    exact Visit.quiet trivial fun _ _ => uploadLocked_visits body _ _
  · have hne : r.header.opcode ≠ opReqUpload := by
      rw [hop]
      decide
    rw [if_neg hne, if_neg hne, if_pos hop, handleDownload_eq _ _ _ _ hcomplete]
    refine namedOf_visits (by exact nofun)
      (fun _ => nameField_error_length (by decide) (by decide)) ?_
    intro name _ hf
    cases hfield : nameField msgDownloadTooShort msgDownloadMalformed r.payload with
    | error msg =>
      rw [hfield] at hf
      cases hf
    | ok m =>
      rw [hfield] at hf
      cases hf
      exact Visit.quiet trivial fun _ _ => downloadLocked_visits

theorem visits_cases {e : Call} (h : (visits host n).admits stage e) :
    Quiet e ∨
    (∃ path, e = .openRead path ∧ stage = .ahead ∧ resolve host.root path = some n) ∨
    (∃ path, e = .openWrite path ∧ stage = .ahead ∧ resolve host.root path = some n) ∨
    (∃ file, e = .fstat file ∧ stage = .found ∧ file.ino.name = n) ∨
    (∃ file data, e = .write file data ∧ stage = .within .exclusive ∧ file.ino.name = n) ∨
    ∃ fd map off len m, e = .sockWrite fd (.mapped map off len) ∧ stage = .within m ∧
      map.ino.name = n := by
  cases e with
  | openRead path => exact Or.inr (Or.inl ⟨path, rfl, h.1, h.2⟩)
  | openWrite path => exact Or.inr (Or.inr (Or.inl ⟨path, rfl, h.1, h.2⟩))
  | fstat file => exact Or.inr (Or.inr (Or.inr (Or.inl ⟨file, rfl, h.1, h.2⟩)))
  | write file data =>
    exact Or.inr (Or.inr (Or.inr (Or.inr (Or.inl ⟨file, data, rfl, h.1, h.2⟩))))
  | sockWrite fd buf =>
    cases buf with
    | memory bytes => exact Or.inl trivial
    | mapped map off len =>
      obtain ⟨⟨m, hm⟩, hname⟩ := h
      exact Or.inr (Or.inr (Or.inr (Or.inr (Or.inr ⟨fd, map, off, len, m, rfl, hm, hname⟩))))
  | _ => exact Or.inl h

theorem roleOfPath_resolved {path : Bytes} (h : resolve host.root path = some n) (m : Mode) :
    roleOfPath host path m = .access n m := by
  simp only [roleOfPath, h]

/-- An admitted call leaves all files alone or touches the file of the handler. -/
theorem visits_role {e : Call} (h : (visits host n).admits stage e) :
    Idle ((semantics host).role e) ∨ ∃ m, (semantics host).role e = .access n m := by
  rcases visits_cases h with hq | ⟨path, rfl, -, hres⟩ | ⟨path, rfl, -, hres⟩ |
    ⟨file, rfl, -, rfl⟩ | ⟨file, data, rfl, -, rfl⟩ | ⟨fd, map, off, len, m, rfl, -, rfl⟩
  · exact Or.inl (quiet_idle hq)
  · exact Or.inr ⟨.shared, roleOfPath_resolved hres _⟩
  · exact Or.inr ⟨.exclusive, roleOfPath_resolved hres _⟩
  · exact Or.inr ⟨.shared, rfl⟩
  · exact Or.inr ⟨.exclusive, rfl⟩
  · exact Or.inr ⟨.shared, rfl⟩

/-- What may happen to an entry that uploads and downloads visit. -/
structure Grows (v v' : Node) : Prop where
  gone : v'.gone.length = v.gone.length
  current : v.current ≠ none → v'.current ≠ none

theorem Grows.refl (v : Node) : Grows v v := ⟨rfl, id⟩

theorem openWriteNode_grows (host : Host) (n : Bytes) (v : Node) (l : Local) :
    Grows v (openWriteNode host n v l).2.1 ∧
      ((openWriteNode host n v l).1 = none → (openWriteNode host n v l).2.1 = v) := by
  unfold openWriteNode
  split
  · exact ⟨.refl v, fun _ => rfl⟩
  · split
    · split
      · exact ⟨⟨rfl, fun _ => nofun⟩, nofun⟩
      · exact ⟨.refl v, fun _ => rfl⟩
    · exact ⟨⟨rfl, fun _ => nofun⟩, nofun⟩

theorem setFile_grows (v : Node) (generation : ℕ) (f : File) :
    Grows v (v.setFile generation f) := by
  unfold Node.setFile
  split
  · exact ⟨by simp, id⟩
  · exact ⟨rfl, fun _ => nofun⟩

theorem writeNode_grows (host : Host) (file : Fd) (data : Bytes) (v : Node) (l : Local) :
    Grows v (writeNode host file data v l).2.1 := by
  unfold writeNode
  split
  · exact setFile_grows v _ _
  · exact .refl v

/-- The effect of an admitted call: other files stay, and only an open for writing and the
calls of an exclusive window change the file at all. -/
theorem visits_effect {e : Call} (h : (visits host n).admits stage e) {σ σ' : Bytes → Node}
    {l l' : Local} {r : Reply e} (hh : (semantics host).handle e (σ, l) = some (r, σ', l')) :
    (∀ m, m ≠ n → σ' m = σ m) ∧ Grows (σ n) (σ' n) ∧
      (σ' n = σ n ∨ (visits host n).next stage e r = .within .exclusive) := by
  have hsame : ∀ m, (semantics host).role e = .access n m → m = .shared → σ' = σ := by
    rintro m hr rfl
    obtain ⟨-, rfl, -⟩ := of_handle_access hr hh
    rw [(semantics host).touch_shared e n _ _ hr, Function.update_eq_self]
  have hkeep : σ' = σ → (∀ m, m ≠ n → σ' m = σ m) ∧ Grows (σ n) (σ' n) ∧
      (σ' n = σ n ∨ (visits host n).next stage e r = .within .exclusive) := by
    rintro rfl
    exact ⟨fun _ _ => rfl, .refl _, Or.inl rfl⟩
  rcases visits_cases h with hq | ⟨path, rfl, -, hres⟩ | ⟨path, rfl, -, hres⟩ |
    ⟨file, rfl, -, rfl⟩ | ⟨file, data, rfl, rfl, rfl⟩ | ⟨fd, map, off, len, m, rfl, -, rfl⟩
  · exact hkeep (handle_idle_any (quiet_idle hq) hh).1
  · exact hkeep (hsame _ (roleOfPath_resolved hres _) rfl)
  · have hrole : (semantics host).role (.openWrite path) = .access n .exclusive :=
      roleOfPath_resolved hres _
    obtain ⟨hr, rfl, -⟩ := of_handle_access hrole hh
    simp only [semantics, Kernel.touch, hres] at hr ⊢
    obtain ⟨hgrows, hnone⟩ := openWriteNode_grows host n (σ n) l
    refine ⟨fun m hm => Function.update_of_ne hm .., ?_, ?_⟩
    · rwa [Function.update_self]
    · rw [Function.update_self]
      cases r with
      | none => exact Or.inl (hnone hr)
      | some file => exact Or.inr rfl
  · exact hkeep (hsame .shared rfl rfl)
  · obtain ⟨-, rfl, -⟩ := of_handle_access (M := semantics host) (k := file.ino.name)
      (m := .exclusive) rfl hh
    refine ⟨fun m hm => Function.update_of_ne hm .., ?_, Or.inr rfl⟩
    rw [Function.update_self]
    exact writeNode_grows host file data _ l
  · exact hkeep (hsame .shared rfl rfl)

/-- The file whose window a call opens, and whether the window is for reading only. -/
def enters (host : Host) : Call → Option (Bytes × Mode)
  | .openWrite path => (resolve host.root path).map fun name => (name, .exclusive)
  | .fstat file => some (file.ino.name, .shared)
  | _ => none

/-- The last window that a handler has opened. -/
def entered (host : Host) (log : List Call) : Option (Bytes × Mode) :=
  log.foldl (fun cur e => (enters host e).or cur) none

theorem entered_snoc (log : List Call) (e : Call) :
    entered host (log ++ [e]) = (enters host e).or (entered host log) := by
  simp [entered]

theorem quiet_enters {e : Call} (h : Quiet e) : enters host e = none := by
  cases e <;> first | rfl | exact h.elim

/-- A handler that is done with its file leaves all files alone. -/
theorem rests_of_done {p : Prog Unit} (h : Visit host n .done p) : (semantics host).Rests p := by
  induction p with
  | ret a => trivial
  | stuck => exact h.elim
  | call e k ih =>
    have hq : Quiet e := by
      rcases visits_cases h.1 with hq | ⟨_, -, hs, -⟩ | ⟨_, -, hs, -⟩ | ⟨_, -, hs, -⟩ |
        ⟨_, _, -, hs, -⟩ | ⟨_, _, _, _, _, -, hs, -⟩
      · exact hq
      all_goals cases hs
    refine ⟨quiet_idle hq, fun r hr => ih r ?_⟩
    have hnext := h.2 r hr
    rwa [(quiet_visits hq .done).2 r] at hnext

end Program

section Alone
variable {host : Host} {W : Bytes → Bytes → Prop} {gens : ℕ} {n : Bytes}

/-- An entry that holds a whole file, if any, of the one generation that is ever linked. -/
structure Fit (W : Bytes → Bytes → Prop) (gens : ℕ) (n : Bytes) (v : Node) : Prop where
  whole : Whole W n v
  gone : v.gone.length = gens

/-- The answer to a download is a whole file. -/
def Served (W : Bytes → Bytes → Prop) (r : Request) (l' : Local) : Prop :=
  r.header.opcode = opReqDownload → DeliversWhole W r.payload r.loc l'

/-- An upload or a download that runs alone, from an entry that fits, leaves one that fits
and serves a whole file. -/
theorem request_alone (r : Request) (hcomplete : r.Complete)
    (hop : r.header.opcode = opReqUpload ∨ r.header.opcode = opReqDownload)
    (hr : Unhindered r.outcomes) (hl : Delivers r.loc)
    (hW : r.header.opcode = opReqUpload → ∀ name body,
      uploadFields r.payload = .ok (name, body) → W name body)
    {σ : Bytes → Node} (hσ : Fit W gens (targetOf r) (σ (targetOf r))) :
    (r.prog host).wp (semantics host).handle
      (fun _ s => Fit W gens (targetOf r) (s.1 (targetOf r)) ∧ Served W r s.2) (σ, r.loc) := by
  have hnames : r.NamesFile := hop.elim Or.inl fun h => Or.inr (Or.inl h)
  have hkeeps : Keeps host (fun m v => m = targetOf r → Fit W gens m v) r := by
    refine ⟨fun hup name body v hf hv hn => ⟨?_, (hv hn).gone⟩, fun hdel => ?_, fun hmod => ?_⟩
    · rintro f ⟨⟩
      exact hW hup name body hf
    · rcases hop with h | h <;> rw [h] at hdel <;> exact absurd hdel (by decide)
    · rcases hop with h | h <;> rw [h] at hmod <;> exact absurd hmod (by decide)
  have hholds := request_holds (l := r.loc) r hcomplete hnames hr hkeeps
    (σ := σ) fun m hm => hm ▸ hσ
  by_cases hdown : r.header.opcode = opReqDownload
  · have hserved := download_deliversWhole (σ := σ)
      (W := fun m c => m = targetOf r → W m c) host r hcomplete hdown hl
      fun m f hf hm => by
        subst hm
        exact hσ.whole f hf
    refine Program.wp_mono (Program.wp_and hholds hserved) fun _ s ⟨hfit, hs⟩ => ?_
    refine ⟨hfit _ rfl, fun _ hres => ?_⟩
    obtain ⟨name, c, us, hfield, hwhole, hsent⟩ := hs hres
    refine ⟨name, c, us, hfield, hwhole ?_, hsent⟩
    unfold targetOf
    rw [if_neg (by rw [hdown]; decide), hfield]
  · exact Program.wp_mono hholds fun _ s hfit => ⟨hfit _ rfl, fun h => absurd h hdown⟩

end Alone

end NervFS.Visits
