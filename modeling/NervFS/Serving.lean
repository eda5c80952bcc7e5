import NervFS.DirectoryScans
import NervFS.Replies
import NervFS.Workers

/-!
One request served from start to end on a host where calls fail only for a missing name or
a refused permission. Each operation then has one outcome for each state of the entry that
it names: the response, and the entry that it leaves.
-/
namespace NervFS.Serving

open Programs KeyedStore KeyedStore.Semantics Calls Protocol FileOps Handlers Requests
open Operations Kernel Responses Alone Listings World DirectoryScans Replies Workers

/-- No call fails of its own accord, and a write takes all that it is offered. The socket
may take the response in pieces. -/
structure Calm (o : Outcomes) : Prop where
  mallocs : ∀ b ∈ o.mallocs, b = true
  opens : ∀ b ∈ o.opens, b = true
  fstats : ∀ b ∈ o.fstats, b = true
  mmaps : ∀ b ∈ o.mmaps, b = true
  setlkws : ∀ b ∈ o.setlkws, b = true
  unlinks : ∀ b ∈ o.unlinks, b = true
  chmods : ∀ b ∈ o.chmods, b = true
  opendirs : ∀ b ∈ o.opendirs, b = true
  stats : ∀ b ∈ o.stats, b = true
  writes : ∀ t ∈ o.writes, t = .all
  sends : ∀ t ∈ o.sends, t ≠ .error

/-- A file as the operations leave it: its name resolves, its body came in one request, and
its mode has permission bits only. -/
structure Proper (host : Host) (name : Bytes) (f : File) : Prop where
  valid : ValidName host.root pathMax name
  size : f.bytes.length + 10 < 2 ^ 32
  mode : f.mode < 2 ^ 12

/-- Every file of the directory is proper. -/
def Sound (host : Host) (σ : Bytes → Node) : Prop :=
  ∀ name, ∀ f ∈ (σ name).current, Proper host name f

/-- The entries are the files, each of them once, with their sizes and modes. -/
structure Lists (files : Bytes → Option File) (entries : List Dirent) : Prop where
  nodup : (entries.map Dirent.name).Nodup
  mem_iff : ∀ e, e ∈ entries ↔ ∃ f, files e.name = some f ∧ e.size.toNat = f.bytes.length ∧
    e.mode.toNat = f.mode

/-- The encoding of a listing fits the length field of its header. -/
def Fits (s : Storage) : Prop := 4 + ((names s).map fun n => 14 + n.length).sum < 2 ^ 32

instance (s : Storage) : Decidable (Fits s) := inferInstanceAs (Decidable (_ < _))

/-- What a request, given as its operation or the reason to turn it down, is answered with,
and the entries that it leaves. -/
inductive Answered (host : Host) (σ : Bytes → Node) :
    Except Bytes Operation → (Bytes → Node) → Message → Prop
  | malformed (msg : Bytes) :
    Answered host σ (.error msg) σ (.error errBadRequest msg)
  | forbidden {op : Operation} (hop : op ≠ .list)
    (hname : ¬ ValidName host.root pathMax (nameOf op)) :
    Answered host σ (.ok op) σ (.error errForbidden msgInvalidFilename)
  | stored {name body : Bytes} (us networkUs writeUs syncUs : UInt64)
    (hname : ValidName host.root pathMax name)
    (hopen : ∀ f ∈ (σ name).current, host.permits .write f.mode = true) :
    Answered host σ (.ok (.upload name body))
      (Function.update σ name ((σ name).put ⟨body, modeAfter host (σ name)⟩))
      (.metrics us networkUs writeUs syncUs)
  | unopened {name body : Bytes} {f : File} (hname : ValidName host.root pathMax name)
    (hf : (σ name).current = some f) (hperm : host.permits .write f.mode = false) :
    Answered host σ (.ok (.upload name body)) σ (.error errInternal msgOpenFailed)
  | sent {name : Bytes} {f : File} (us : UInt64) (hname : ValidName host.root pathMax name)
    (hf : (σ name).current = some f) (hperm : host.permits .read f.mode = true) :
    Answered host σ (.ok (.download name)) σ (.file us f.bytes)
  | unread {name : Bytes} (hname : ValidName host.root pathMax name)
    (hperm : ∀ f ∈ (σ name).current, host.permits .read f.mode = false) :
    Answered host σ (.ok (.download name)) σ (.error errNotFound msgNotFound)
  | listed {entries : List Dirent} (us : UInt64)
    (hlists : Lists (fun n => (σ n).current) entries) :
    Answered host σ (.ok .list) σ (.listing us entries)
  | deleted {name : Bytes} (us : UInt64) (hname : ValidName host.root pathMax name)
    (hf : (σ name).current ≠ none) :
    Answered host σ (.ok (.delete name)) (Function.update σ name (removed (σ name))) (.ok us)
  | notDeleted {name : Bytes} (hname : ValidName host.root pathMax name)
    (hf : (σ name).current = none) :
    Answered host σ (.ok (.delete name)) σ (.error errNotFound msgNotFound)
  | changed {name : Bytes} {mode : UInt32} (us : UInt64)
    (hname : ValidName host.root pathMax name) (hf : (σ name).current ≠ none) :
    Answered host σ (.ok (.chmod name mode)) (Function.update σ name (rechmod mode (σ name)))
      (.ok us)
  | notChanged {name : Bytes} {mode : UInt32} (hname : ValidName host.root pathMax name)
    (hf : (σ name).current = none) :
    Answered host σ (.ok (.chmod name mode)) σ (.error errNotFound msgNotFound)

/-- The response is one frame, and its header announces exactly what follows. -/
def Framed (l l' : Local) (m : Message) : Prop :=
  l'.sent = l.sent ++ frame m.opcode m.elapsedUs m.body ∧ m.body.length < 2 ^ 32

/-- The end of a request. -/
def Ends (host : Host) (σ : Bytes → Node) (request : Except Bytes Operation) (l : Local)
    (t : (Bytes → Node) × Local) : Prop :=
  ∃ m, Answered host σ request t.1 m ∧ Framed l t.2 m

section Handlers
variable {host : Host} {fd : ℕ} {name : Bytes} {σ : Bytes → Node} {l : Local}
variable {request : Except Bytes Operation}

theorem head_true {bs : List Bool} (h : ∀ b ∈ bs, b = true) : bs.headD true = true :=
  head_mallocs h

theorem Calm.steady (h : Calm l.outcomes) : Steady l := ⟨h.sends, h.mallocs⟩

theorem Calm.opens_iff (h : Calm l.outcomes) :
    Opens host (σ name) l ↔ ∀ f ∈ (σ name).current, host.permits .write f.mode = true :=
  ⟨And.right, fun hperm => ⟨head_true h.opens, hperm⟩⟩

theorem Calm.opensRead_iff (h : Calm l.outcomes) :
    OpensRead host (σ name) l ↔ ∃ f ∈ (σ name).current, host.permits .read f.mode = true :=
  ⟨And.right, fun hperm => ⟨head_true h.opens, hperm⟩⟩

theorem Calm.written (h : Calm l.outcomes) (body : Bytes) :
    written l body = some body.length := by
  unfold Alone.written
  cases hw : l.outcomes.writes with
  | nil => rfl
  | cons t ts =>
    have hall : t = .all := h.writes t (by rw [hw]; exact List.mem_cons_self)
    rw [hall]
    rfl

theorem error_ends {code : UInt16} {msg : Bytes} (hmsg : msg.length < 65536)
    (ha : Answered host σ request σ (.error code msg)) {l₁ : Local} (hl : Steady l₁)
    (hsent : l₁.sent = l.sent) :
    (sendError fd code msg).wp (semantics host).handle (fun _ => Ends host σ request l)
      (σ, l₁) := by
  refine sendError_steady_wp code msg hmsg hl fun l' h => ⟨_, ha, ?_, ?_⟩
  · exact h.trans (congrArg (· ++ _) hsent)
  · simp only [Message.body, BridgeReplies.errorBody, writeU16, List.length_append,
      BigEndian.toBytes_length]
    omega

theorem ok_ends {σ' : Bytes → Node} {us : UInt64} (ha : Answered host σ request σ' (.ok us))
    {l₁ : Local} (hl : Steady l₁) (hsent : l₁.sent = l.sent) :
    (sendOk fd us).wp (semantics host).handle (fun _ => Ends host σ request l) (σ', l₁) := by
  refine sendOk_wp us hl.delivers fun l' h => ⟨_, ha, ?_, Nat.pow_pos (by omega)⟩
  exact h.trans (congrArg (· ++ _) hsent)

theorem upload_ends {body : Bytes} (networkUs : UInt64) (hc : Calm l.outcomes)
    (hname : ValidName host.root pathMax name) (hbody : body.length < 2 ^ 64) {l₀ : Local}
    (hsent : l.sent = l₀.sent) :
    (uploadAct fd networkUs (joinPath host.root name) name body).wp (semantics host).handle
      (fun _ => Ends host σ (.ok (.upload name body)) l₀) (σ, l) := by
  have hlocks : Locks l := head_true hc.setlkws
  have hwritten := hc.written body
  refine quiet_wp (idle_acquire rfl) rfl fun _ => uploadLocked_wp body networkUs hbody ?_ ?_ ?_ ?_
  · intro hopen l' hl'
    have hrefused := mt hc.opens_iff.mpr hopen
    simp only [not_forall] at hrefused
    obtain ⟨f, hf, hperm⟩ := hrefused
    exact error_ends (by decide) (.unopened hname hf (Bool.eq_false_iff.mpr hperm))
      (hl'.steady hc.steady) (hl'.sent.trans hsent)
  · intro _ hno
    exact absurd hlocks hno
  · intro _ _ hno
    exact absurd hwritten hno
  · intro hopen _ _ l' writeUs syncUs us hl'
    refine sendMetrics_wp networkUs writeUs syncUs us (hl'.delivers hc.steady.delivers) ?_
    intro l'' h
    refine ⟨_, .stored us networkUs writeUs syncUs hname (hc.opens_iff.mp hopen), ?_, ?_⟩
    · exact h.trans (congrArg (· ++ _) (hl'.sent.trans hsent))
    · have hlen := metricsBody_length networkUs writeUs syncUs
      simp only [Message.body]
      omega

theorem download_ends (hc : Calm l.outcomes) (hname : ValidName host.root pathMax name)
    (hsize : ∀ f ∈ (σ name).current, f.bytes.length + 10 < 2 ^ 32) :
    (downloadAct fd (joinPath host.root name) name).wp (semantics host).handle
      (fun _ => Ends host σ (.ok (.download name)) l) (σ, l) := by
  refine quiet_wp (idle_acquire rfl) rfl fun _ => downloadLocked_wp hc.steady.delivers ?_ ?_ ?_
  · intro hno l' hl'
    refine error_ends (by decide) (.unread hname ?_) (hl'.steady hc.steady) hl'.sent
    intro f hf
    rcases hno with hno | hno
    · have hrefused := mt hc.opensRead_iff.mpr hno
      exact Bool.eq_false_iff.mpr fun hperm => hrefused ⟨f, hf, hperm⟩
    · rw [head_true hc.fstats] at hno
      cases hno
  · intro hno
    rw [head_true hc.mmaps] at hno
    cases hno
  · intro hopen f hf l' us h
    obtain ⟨g, hg, hperm⟩ := hc.opensRead_iff.mp hopen
    cases Option.mem_unique hf hg
    refine ⟨_, .sent us hname hf hperm, h, ?_⟩
    have hlen := hsize f hf
    simp only [Message.body, BridgeReplies.fileBody, writeU64, List.length_append,
      BigEndian.toBytes_length]
    omega

theorem delete_ends (hc : Calm l.outcomes) (hname : ValidName host.root pathMax name) :
    (deleteAct fd (joinPath host.root name) name).wp (semantics host).handle
      (fun _ => Ends host σ (.ok (.delete name)) l) (σ, l) := by
  apply deleteAct_wp
  · intro hno l' hl'
    have hnone : (σ name).current = none := by
      by_contra hcur
      exact hno ⟨head_true hc.unlinks, hcur⟩
    exact error_ends (by decide) (.notDeleted hname hnone) (hl'.steady hc.steady) hl'.sent
  · intro hdone l' us hl'
    exact ok_ends (.deleted us hname hdone.2) (hl'.steady hc.steady) hl'.sent

theorem chmod_ends {mode : UInt32} (hc : Calm l.outcomes)
    (hname : ValidName host.root pathMax name) :
    (chmodAct fd (joinPath host.root name) name mode).wp (semantics host).handle
      (fun _ => Ends host σ (.ok (.chmod name mode)) l) (σ, l) := by
  apply chmodAct_wp
  · intro hno l' hl'
    have hnone : (σ name).current = none := by
      by_contra hcur
      exact hno ⟨head_true hc.chmods, hcur⟩
    exact error_ends (by decide) (.notChanged hname hnone) (hl'.steady hc.steady) hl'.sent
  · intro hdone l' us hl'
    exact ok_ends (.changed us hname hdone.2) (hl'.steady hc.steady) hl'.sent

/-- The name of an operation is resolved before anything else is done. -/
theorem resolved_ends (op : Operation) {act : Bytes → Prog Unit} (hop : op ≠ .list)
    (hc : Calm l.outcomes) {l₀ : Local} (hsent : l.sent = l₀.sent)
    (hact : ValidName host.root pathMax (nameOf op) →
      (act (joinPath host.root (nameOf op))).wp (semantics host).handle
        (fun _ => Ends host σ (.ok op) l₀) (σ, l)) :
    (resolved host.root fd (nameOf op) act).wp (semantics host).handle
      (fun _ => Ends host σ (.ok op) l₀) (σ, l) := by
  unfold resolved
  cases hres : safeResolvePath host.root (nameOf op) pathMax with
  | none =>
    refine error_ends (by decide) (.forbidden hop fun hname => ?_) hc.steady hsent
    rw [safeResolvePath_eq_some hname] at hres
    cases hres
  | some path =>
    obtain ⟨hname, rfl⟩ := validName_of_safeResolvePath hres
    exact hact hname

/-- A request for one file, on a socket that has sent nothing yet. -/
theorem serve_ends {op : Operation} (hop : op ≠ .list) (netStart : Timespec)
    (hc : Calm l.outcomes) (hbody : (payloadOf op).length < 2 ^ 32) (hsound : Sound host σ) :
    (serve host.root fd netStart op).wp (semantics host).handle
      (fun _ => Ends host σ (.ok op) l) (σ, l) := by
  cases op with
  | upload name body =>
    have hlen : body.length < 2 ^ 64 := by
      simp only [payloadOf, uploadPayload, List.length_append] at hbody
      omega
    have hclock : Calm l.popClock.outcomes := ⟨hc.mallocs, hc.opens, hc.fstats, hc.mmaps,
      hc.setlkws, hc.unlinks, hc.chmods, hc.opendirs, hc.stats, hc.writes, hc.sends⟩
    exact clock_wp fun netEnd => resolved_ends (.upload name body) hop hclock rfl
      fun hname => upload_ends _ hclock hname hlen rfl
  | download name =>
    exact resolved_ends (.download name) hop hc rfl
      fun hname => download_ends hc hname fun f hf => (hsound name f hf).size
  | list => exact absurd rfl hop
  | delete name =>
    exact resolved_ends (.delete name) hop hc rfl fun hname => delete_ends hc hname
  | chmod name mode =>
    exact resolved_ends (.chmod name mode) hop hc rfl fun hname => chmod_ends hc hname

theorem refuse_ends (opcode : UInt16) {msg : Bytes} (hmsg : msg.length < 65536)
    (hc : Calm l.outcomes) :
    (refuse fd opcode msg).wp (semantics host).handle
      (fun _ => Ends host σ (.error msg) l) (σ, l) := by
  unfold refuse
  split
  · exact clock_wp fun _ => error_ends hmsg (.malformed msg) ⟨hc.sends, hc.mallocs⟩ rfl
  · exact error_ends hmsg (.malformed msg) hc.steady rfl

theorem resolved_sectioned {act : Bytes → Prog Unit}
    (hact : ValidName host.root pathMax name →
      (semantics host).Sectioned .before (act (joinPath host.root name))) :
    (semantics host).Sectioned .before (resolved host.root fd name act) := by
  unfold resolved
  cases hres : safeResolvePath host.root name pathMax with
  | none => exact Sections.sendError_sectioned Sections.before_ne _ msgInvalidFilename (by decide)
  | some path =>
    obtain ⟨hname, rfl⟩ := validName_of_safeResolvePath hres
    exact hact hname

theorem serve_sectioned {op : Operation} (hop : op ≠ .list) (netStart : Timespec) :
    (semantics host).Sectioned .before (serve host.root fd netStart op) := by
  cases op with
  | upload name body =>
    exact Sectioned.own rfl fun _ _ =>
      resolved_sectioned fun hname => Sections.uploadAct_sectioned hname _ body
  | download name => exact resolved_sectioned Sections.downloadAct_sectioned
  | list => exact absurd rfl hop
  | delete name => exact resolved_sectioned Sections.deleteAct_sectioned
  | chmod name mode => exact resolved_sectioned fun hname => Sections.chmodAct_sectioned hname mode

theorem refuse_sectioned (opcode : UInt16) {msg : Bytes} (hmsg : msg.length < 65536) :
    (semantics host).Sectioned .before (refuse fd opcode msg) := by
  have herror : (semantics host).Sectioned .before (sendError fd errBadRequest msg) :=
    Sections.sendError_sectioned Sections.before_ne _ msg hmsg
  unfold refuse
  split
  · exact Sectioned.own rfl fun _ _ => herror
  · exact herror

end Handlers

section Listing
variable {host : Host} {s : Server} {l : Local}

theorem scanned_file (hsound : Sound host (node s.files)) {name : Bytes} {f : File}
    (hf : (node s.files name).current = some f) :
    scanned host.root (node s.files) name =
      some ⟨name, UInt64.ofNat f.bytes.length, UInt32.ofNat f.mode⟩ := by
  obtain ⟨hname, -, hmode⟩ := hsound name f hf
  have hfits := hname.fits
  have hjoin : (joinPath host.root name).length = host.root.length + 1 + name.length := by
    simp only [joinPath, List.length_append, List.length_cons]
    omega
  have hmask : f.mode &&& 0o7777 = f.mode := Nat.and_two_pow_sub_one_of_lt_two_pow hmode
  unfold scanned
  rw [if_neg (not_or.mpr ⟨hname.not_dot, hname.not_dotDot⟩), if_neg (by omega), hf,
    Option.map_some, List.take_of_length_le hname.short, hmask]

theorem scanned_dots {root : Bytes} {σ : Bytes → Node} {name : Bytes}
    (h : name = dotName ∨ name = dotDotName) : scanned root σ name = none := if_pos h

/-- The listing of the files, in the order of the stream. -/
def listing (host : Host) (s : Server) (l : Local) : List Dirent :=
  (stream s.files l).filterMap (scanned host.root (node s.files))

theorem listing_perm (host : Host) (s : Server) (l : Local) :
    (listing host s l).Perm ((names s.files).filterMap (scanned host.root (node s.files))) := by
  have hperm := (stream_perm s.files l).filterMap (scanned host.root (node s.files))
  rwa [List.filterMap_cons_none (scanned_dots (Or.inl rfl)),
    List.filterMap_cons_none (scanned_dots (Or.inr rfl))] at hperm

theorem scanned_name (hsound : Sound host (node s.files)) {name : Bytes}
    (h : name ∈ names s.files) :
    (scanned host.root (node s.files) name).map Dirent.name = some name := by
  obtain ⟨f, hf⟩ := Option.ne_none_iff_exists'.mp (mem_names.mp h)
  rw [scanned_file hsound hf, Option.map_some]

theorem listing_names (hsound : Sound host (node s.files)) :
    ((listing host s l).map Dirent.name).Perm (names s.files) := by
  have hsame : ((names s.files).filterMap (scanned host.root (node s.files))).map Dirent.name =
      names s.files := by
    rw [List.map_filterMap]
    calc (names s.files).filterMap (fun n => (scanned host.root (node s.files) n).map Dirent.name)
        = (names s.files).filterMap some :=
          List.filterMap_congr fun n hn => scanned_name hsound hn
      _ = names s.files := List.filterMap_some
  have hperm := (listing_perm host s l).map Dirent.name
  rwa [hsame] at hperm

theorem listing_lists (hsound : Sound host (node s.files)) :
    Lists (fun n => (node s.files n).current) (listing host s l) := by
  constructor
  · exact (listing_names hsound).nodup_iff.mpr (names_nodup s.files)
  · intro e
    rw [(listing_perm host s l).mem_iff, List.mem_filterMap]
    constructor
    · intro h
      obtain ⟨n, hn, hscan⟩ := h
      obtain ⟨f, hf⟩ := Option.ne_none_iff_exists'.mp (mem_names.mp hn)
      rw [scanned_file hsound hf] at hscan
      cases hscan
      obtain ⟨-, hsize, hmode⟩ := hsound n f hf
      refine ⟨f, hf, ?_, ?_⟩
      · rw [UInt64.toNat_ofNat']
        exact Nat.mod_eq_of_lt (by omega)
      · rw [UInt32.toNat_ofNat']
        exact Nat.mod_eq_of_lt (by omega)
    · intro h
      obtain ⟨f, hf, hsize, hmode⟩ := h
      refine ⟨e.name, mem_names.mpr (by rw [hf]; exact nofun), ?_⟩
      rw [scanned_file hsound hf, ← hsize, ← hmode, UInt64.ofNat_toNat, UInt32.ofNat_toNat]

theorem flatMap_encode_length (entries : List Dirent) :
    (entries.flatMap encodeDirent).length =
      ((entries.map Dirent.name).map fun n => 14 + n.length).sum := by
  rw [List.length_flatMap, List.map_map]
  congr 1
  apply List.map_congr_left
  intro e _
  exact encodeDirent_length e

theorem listing_length (hsound : Sound host (node s.files)) :
    (listBody (listing host s l)).length =
      4 + ((names s.files).map fun n => 14 + n.length).sum := by
  rw [listBody_length, flatMap_encode_length,
    ((listing_names hsound).map fun n : Bytes => 14 + n.length).sum_nat]

theorem listing_short (hsound : Sound host (node s.files)) :
    ∀ e ∈ listing host s l, e.name.length ≤ nervfsMaxNameLen := by
  intro e he
  obtain ⟨f, hf, -⟩ := ((listing_lists hsound).mem_iff e).mp he
  exact (hsound e.name f hf).valid.short

theorem listing_encodable (hsound : Sound host (node s.files)) (hfits : Fits s.files) :
    Encodable (listing host s l) :=
  ⟨listing_short hsound, (listing_length hsound).trans_lt hfits⟩

end Listing

section Requests
variable {host : Host} {s : Server} {r : Request}

/-- The operation that a request carries, or the reason to turn it down. -/
def operationOf (r : Request) : Except Bytes Operation := decode r.header.opcode r.payload

theorem carried_length {opcode : UInt16} {payload : Bytes} {op : Operation}
    (h : decode opcode payload = .ok op) (hop : op ≠ .list) : payload = payloadOf op :=
  (payloadOf_of_carries (decode_ok_iff.mp h).2 hop).2

/-- A calm request on a sound directory ends as its operation demands, and leaves no lock. -/
theorem request_ends (hr : r.Complete) (hc : Calm r.outcomes) (hheld : s.held = [])
    (hsound : Sound host (node s.files)) (hfits : operationOf r = .ok .list → Fits s.files) :
    (r.prog host).wp (exec host)
      (fun _ t => t.1.held = [] ∧
        Ends host (node s.files) (operationOf r) r.loc (node t.1.files, t.2)) (s, r.loc) := by
  have hcalm : Calm r.loc.outcomes := hc
  unfold Request.prog
  rw [dispatchRequestTimed_eq _ _ _ _ hr]
  refine exec_own_wp rfl ?_
  unfold answer operationOf at *
  cases hd : decode r.header.opcode r.payload with
  | error msg =>
    have hmsg := decode_error_length hd
    exact sectioned_wp (refuse_sectioned _ hmsg) hheld (refuse_ends _ hmsg hcalm)
  | ok op =>
    by_cases hop : op = .list
    · subst hop
      have henc := listing_encodable (l := r.loc) hsound (hfits hd)
      refine Program.wp_mono (handleList_wp r.clientFd hheld ⟨hcalm.steady, hcalm.stats⟩
        (head_true hcalm.opendirs) henc) ?_
      intro _ t ht
      obtain ⟨hnone, hfiles, us, hsent⟩ := ht
      refine ⟨hnone, .listing us (listing host s r.loc), ?_, hsent, henc.total⟩
      rw [hfiles]
      exact .listed us (listing_lists hsound)
    · have hlen : (payloadOf op).length < 2 ^ 32 := by
        rw [← carried_length hd hop, ← hr]
        exact r.header.payloadLen.toNat_lt
      exact sectioned_wp (serve_sectioned hop _) hheld
        (serve_ends hop r.netStart hcalm hlen hsound)

/-- The server does not get through a listing that its frame cannot hold. -/
theorem request_stuck (hr : r.Complete) (hc : Calm r.outcomes)
    (hsound : Sound host (node s.files)) (hlist : operationOf r = .ok .list)
    (hbig : ¬ Fits s.files) : (r.prog host).run (exec host) (s, r.loc) = none := by
  have hcalm : Calm r.loc.outcomes := hc
  have htotal : 2 ^ 32 ≤ (listBody (listing host s r.loc)).length := by
    rw [listing_length hsound]
    exact Nat.le_of_not_lt hbig
  unfold Request.prog
  rw [dispatchRequestTimed_eq _ _ _ _ hr]
  refine (exec_run (exec_own rfl s r.loc)).trans ?_
  unfold answer
  rw [show decode r.header.opcode r.payload = .ok .list from hlist]
  exact handleList_stuck r.clientFd ⟨hcalm.steady, hcalm.stats⟩ (head_true hcalm.opendirs) rfl
    (listing_short hsound) htotal

end Requests

end NervFS.Serving
