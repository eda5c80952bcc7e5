import NervFS.Serving
import Mathlib.Data.Finmap

/-!
What the server is for: a finite map from names to files. Requests that are dispatched one
after another, well formed or not, change the map and are answered as the map demands, on
a host where calls fail only for a missing name. The files stay small enough for the
length field of a download because every body came in the frame of an upload.
-/
namespace NervFS.Catalog

open Programs Transitions Calls Protocol FileOps Handlers Requests Operations Kernel Responses
open Alone Listings FailedUploads World Replies Workers Serving

abbrev FileMap := Finmap fun _ : Bytes => File

/-- What a well-formed request does to the map, and its answer. -/
inductive Performs (host : Host) (m : FileMap) : Operation → FileMap → Message → Prop
  | forbidden {op : Operation} (hop : op ≠ .list)
    (hname : ¬ ValidName host.root pathMax (nameOf op)) :
    Performs host m op m (.error errForbidden msgInvalidFilename)
  | created {name body : Bytes} (us networkUs writeUs syncUs : UInt64)
    (hname : ValidName host.root pathMax name) (hf : m.lookup name = none) :
    Performs host m (.upload name body) (m.insert name ⟨body, host.newMode⟩)
      (.metrics us networkUs writeUs syncUs)
  | replaced {name body : Bytes} {f : File} (us networkUs writeUs syncUs : UInt64)
    (hname : ValidName host.root pathMax name) (hf : m.lookup name = some f) :
    Performs host m (.upload name body) (m.insert name ⟨body, f.mode⟩)
      (.metrics us networkUs writeUs syncUs)
  | downloaded {name : Bytes} {f : File} (us : UInt64)
    (hname : ValidName host.root pathMax name) (hf : m.lookup name = some f) :
    Performs host m (.download name) m (.file us f.bytes)
  | listed {entries : List Dirent} (us : UInt64) (hlists : Lists (fun n => m.lookup n) entries) :
    Performs host m .list m (.listing us entries)
  | deleted {name : Bytes} {f : File} (us : UInt64) (hname : ValidName host.root pathMax name)
    (hf : m.lookup name = some f) :
    Performs host m (.delete name) (m.erase name) (.ok us)
  | changed {name : Bytes} {mode : UInt32} {f : File} (us : UInt64)
    (hname : ValidName host.root pathMax name) (hf : m.lookup name = some f) :
    Performs host m (.chmod name mode) (m.insert name ⟨f.bytes, mode.toNat &&& 0o7777⟩) (.ok us)
  | notFound {op : Operation} {name : Bytes}
    (hop : op = .download name ∨ op = .delete name ∨ ∃ mode, op = .chmod name mode)
    (hname : ValidName host.root pathMax name) (hf : m.lookup name = none) :
    Performs host m op m (.error errNotFound msgNotFound)

/-- What a request with any opcode and any payload does to the map, and its answer. -/
inductive Conforms (host : Host) (m : FileMap) (opcode : UInt16) (payload : Bytes) :
    FileMap → Message → Prop
  | malformed (msg : Bytes) (h : ∀ op : Operation, op.opcode = opcode → ¬ op.Carries payload) :
    Conforms host m opcode payload m (.error errBadRequest msg)
  | performs {op : Operation} {m' : FileMap} {msg : Message} (hop : op.opcode = opcode)
    (hc : op.Carries payload) (h : Performs host m op m' msg) :
    Conforms host m opcode payload m' msg

theorem Conforms.error_keeps {host : Host} {m m' : FileMap} {opcode code : UInt16}
    {payload text : Bytes} (h : Conforms host m opcode payload m' (.error code text)) : m' = m := by
  cases h with
  | malformed => rfl
  | performs hop hc h =>
    cases h with
    | forbidden => rfl
    | notFound => rfl

/-- A request and the bytes of its response, which are those of one message. -/
def CatalogStep (host : Host) (m : FileMap) (x : Request × Bytes) (m' : FileMap) : Prop :=
  ∃ msg : Message, Conforms host m x.1.header.opcode x.1.payload m' msg ∧
    x.2 = frame msg.opcode msg.elapsedUs msg.body ∧ msg.body.length < 2 ^ 32

/-- The server dispatches a request: the directory afterwards, and the response. -/
def respond (host : Host) (s : Server) (r : Request) : Option (Server × Bytes) :=
  ((r.prog host).run (exec host) (s, r.loc)).map fun q => (q.2.1, q.2.2.sent)

def ServerStep (host : Host) (s : Server) (x : Request × Bytes) (s' : Server) : Prop :=
  respond host s x.1 = some (s', x.2)

/-- The request has the payload that it announces, no call fails of its own accord, and a
listing fits its frame. -/
structure Ordinary (s : Server) (r : Request) : Prop where
  complete : r.Complete
  calm : Calm r.outcomes
  fits : r.header.opcode = opReqList → Fits s.files

/-- The map that the directory stands for. -/
def Abstracts (σ : Bytes → Node) (m : FileMap) : Prop :=
  ∀ name, m.lookup name = (σ name).current

section Abstraction
variable {host : Host} {σ σ' : Bytes → Node} {m : FileMap} {name : Bytes} {v : Node}

theorem Abstracts.insert (h : Abstracts σ m) {f : File} (hv : v.current = some f) :
    Abstracts (Function.update σ name v) (m.insert name f) := by
  intro n
  by_cases hn : n = name
  · subst hn
    rw [Finmap.lookup_insert, Function.update_self, hv]
  · rw [Finmap.lookup_insert_of_ne m hn, Function.update_of_ne hn, h n]

theorem Abstracts.erase (h : Abstracts σ m) (hv : v.current = none) :
    Abstracts (Function.update σ name v) (m.erase name) := by
  intro n
  by_cases hn : n = name
  · subst hn
    rw [Finmap.lookup_erase, Function.update_self, hv]
  · rw [Finmap.lookup_erase_ne hn, Function.update_of_ne hn, h n]

/-- An operation that the directory has carried out is one on the map. -/
theorem performs_of_answered (hperm : ∀ kind mode, host.permits kind mode = true) {op : Operation}
    {msg : Message} (ha : Answered host σ (.ok op) σ' msg) (h : Abstracts σ m) :
    ∃ m', Performs host m op m' msg ∧ Abstracts σ' m' := by
  have hallowed : ∀ {kind : LockKind} {mode : ℕ}, host.permits kind mode = false → False := by
    intro kind mode hno
    rw [hperm] at hno
    cases hno
  cases ha with
  | forbidden hop hname => exact ⟨m, .forbidden hop hname, h⟩
  | @stored name body us networkUs writeUs syncUs hname hopen =>
    cases hcur : (σ name).current with
    | none =>
      have hmode : modeAfter host (σ name) = host.newMode := by
        unfold modeAfter
        rw [hcur]
      rw [hmode]
      exact ⟨_, .created us networkUs writeUs syncUs hname ((h name).trans hcur), h.insert rfl⟩
    | some f =>
      have hmode : modeAfter host (σ name) = f.mode := by
        unfold modeAfter
        rw [hcur]
        exact modeWritten_of_permits hperm
      rw [hmode]
      exact ⟨_, .replaced us networkUs writeUs syncUs hname ((h name).trans hcur), h.insert rfl⟩
  | unopened hname hf hno => exact (hallowed hno).elim
  | sent us hname hf hread => exact ⟨m, .downloaded us hname ((h _).trans hf), h⟩
  | @unread name hname hno =>
    cases hcur : (σ name).current with
    | none => exact ⟨m, .notFound (Or.inl rfl) hname ((h name).trans hcur), h⟩
    | some f => exact (hallowed (hno f hcur)).elim
  | listed us hlists =>
    have hfiles : (fun n => m.lookup n) = fun n => (σ n).current := funext h
    exact ⟨m, .listed us (hfiles ▸ hlists), h⟩
  | @deleted name us hname hf =>
    obtain ⟨f, hcur⟩ := Option.ne_none_iff_exists'.mp hf
    exact ⟨_, .deleted us hname ((h name).trans hcur), h.erase rfl⟩
  | notDeleted hname hf =>
    exact ⟨m, .notFound (Or.inr (Or.inl rfl)) hname ((h _).trans hf), h⟩
  | @changed name mode us hname hf =>
    obtain ⟨f, hcur⟩ := Option.ne_none_iff_exists'.mp hf
    refine ⟨_, .changed us hname ((h name).trans hcur), h.insert ?_⟩
    unfold rechmod
    rw [hcur]
    rfl
  | notChanged hname hf =>
    exact ⟨m, .notFound (Or.inr (Or.inr ⟨_, rfl⟩)) hname ((h _).trans hf), h⟩

theorem conforms_of_answered (hperm : ∀ kind mode, host.permits kind mode = true)
    {opcode : UInt16} {payload : Bytes} {msg : Message}
    (ha : Answered host σ (decode opcode payload) σ' msg) (h : Abstracts σ m) :
    ∃ m', Conforms host m opcode payload m' msg ∧ Abstracts σ' m' := by
  cases hd : decode opcode payload with
  | error text =>
    rw [hd] at ha
    cases ha
    refine ⟨m, .malformed text fun op hop hc => ?_, h⟩
    rw [decode_ok_iff.mpr ⟨hop, hc⟩] at hd
    cases hd
  | ok op =>
    rw [hd] at ha
    obtain ⟨hop, hc⟩ := decode_ok_iff.mp hd
    obtain ⟨m', hperforms, h'⟩ := performs_of_answered hperm ha h
    exact ⟨m', .performs hop hc hperforms, h'⟩

end Abstraction

section Server
variable {host : Host} {σ σ' : Bytes → Node}

theorem sound_update (h : Sound host σ) {name : Bytes} {v : Node}
    (hv : ∀ f ∈ v.current, Proper host name f) : Sound host (Function.update σ name v) := by
  intro n f hf
  by_cases hn : n = name
  · subst hn
    rw [Function.update_self] at hf
    exact hv f hf
  · rw [Function.update_of_ne hn] at hf
    exact h n f hf

/-- The body of an upload is shorter than its frame, so a download can announce it. -/
theorem answered_sound {r : Request} (hr : r.Complete)
    {msg : Message} (ha : Answered host σ (operationOf r) σ' msg) (h : Sound host σ) :
    Sound host σ' := by
  generalize hd : operationOf r = request at ha
  cases ha with
  | @stored name body us networkUs writeUs syncUs hname hopen =>
    have hlen := congrArg List.length (carried_length hd (by intro heq; cases heq))
    have hlt := r.header.payloadLen.toNat_lt
    rw [hr, hlen] at hlt
    simp only [payloadOf, uploadPayload, List.length_append, BigEndian.toBytes_length] at hlt
    apply sound_update h
    intro f hf
    cases hf
    refine ⟨hname, by simp only; omega, ?_⟩
    change modeAfter host (σ name) < 2 ^ 12
    unfold modeAfter
    cases hcur : (σ name).current with
    | none => exact (newMode_lt host).trans (by decide)
    | some f => exact modeWritten_lt (h name f hcur).mode
  | @deleted name us hname hf => exact sound_update h (by intro f hf; cases hf)
  | @changed name mode us hname hf =>
    apply sound_update h
    intro f hf
    obtain ⟨g, hg, rfl⟩ := Option.map_eq_some_iff.mp hf
    exact ⟨hname, (h name g hg).size, Nat.and_lt_two_pow _ (show 0o7777 < 2 ^ 12 by decide)⟩
  | _ => exact h

/-- Between two requests no lock is held and every file is proper. -/
structure Inv (host : Host) (s : Server) : Prop where
  held : s.held = []
  sound : Sound host (node s.files)

theorem inv_start : Inv host {} := ⟨rfl, nofun⟩

theorem respond_ends {s : Server} {r : Request} (h : Inv host s) (hr : Ordinary s r) :
    ∃ s' l', respond host s r = some (s', l'.sent) ∧ s'.held = [] ∧
      Ends host (node s.files) (operationOf r) r.loc (node s'.files, l') := by
  have hfits : operationOf r = .ok .list → Fits s.files :=
    fun hd => hr.fits (decode_ok_iff.mp hd).1.symm
  obtain ⟨_, t, hrun, hheld, hends⟩ :=
    request_ends hr.complete hr.calm h.held h.sound hfits
  refine ⟨t.1, t.2, ?_, hheld, hends⟩
  unfold respond
  rw [hrun]
  rfl

theorem serverStep_ends {s s' : Server} {x : Request × Bytes} (h : Inv host s)
    (hr : Ordinary s x.1) (hstep : ServerStep host s x s') :
    s'.held = [] ∧ ∃ msg, Answered host (node s.files) (operationOf x.1) (node s'.files) msg ∧
      x.2 = frame msg.opcode msg.elapsedUs msg.body ∧ msg.body.length < 2 ^ 32 := by
  obtain ⟨s₁, l₁, hrespond, hheld, msg, hanswered, hsent, hlen⟩ := respond_ends h hr
  unfold ServerStep at hstep
  rw [hrespond] at hstep
  obtain ⟨rfl, hbytes⟩ := Prod.mk.inj (Option.some.inj hstep)
  exact ⟨hheld, msg, hanswered, hbytes ▸ hsent, hlen⟩

theorem inv_step {s s' : Server} {x : Request × Bytes}
    (h : Inv host s) (hr : Ordinary s x.1) (hstep : ServerStep host s x s') : Inv host s' := by
  obtain ⟨hheld, msg, hanswered, -⟩ := serverStep_ends h hr hstep
  exact ⟨hheld, answered_sound hr.complete hanswered h.sound⟩

/-- Every ordinary run of the server from an empty directory is a run of the map with the
same responses, and at its end the next ordinary request is answered too. -/
theorem server_refines_catalog
    (hperm : ∀ kind mode, host.permits kind mode = true) {xs : List (Request × Bytes)}
    {s : Server}
    (h : Run (Where (ServerStep host) fun s x _ => Ordinary s x.1) {} xs s) :
    (∃ m, Run (CatalogStep host) ∅ xs m ∧ Abstracts (node s.files) m) ∧
      ∀ r, Ordinary s r → ∃ s' bytes, ServerStep host s (r, bytes) s' := by
  have hinv : Inv host s := h.invariant inv_start fun s x s' hi hs => inv_step hi hs.2 hs.1
  refine ⟨?_, fun r hr => ?_⟩
  · induction h with
    | nil => exact ⟨∅, Run.nil, fun _ => rfl⟩
    | @snoc xs s x s' hrun hs ih =>
      have hi : Inv host s := hrun.invariant inv_start
        fun s x s' hi hs => inv_step hi hs.2 hs.1
      obtain ⟨m, hm, habs⟩ := ih hi
      obtain ⟨-, msg, hanswered, hbytes, hlen⟩ := serverStep_ends hi hs.2 hs.1
      obtain ⟨m', hconforms, habs'⟩ := conforms_of_answered hperm hanswered habs
      exact ⟨m', hm.snoc ⟨msg, hconforms, hbytes, hlen⟩, habs'⟩
  · obtain ⟨s', l', hrespond, -⟩ := respond_ends hinv hr
    exact ⟨s', l'.sent, hrespond⟩

end Server

section Asking
variable {host : Host} {s : Server} {r : Request} {name : Bytes}

/-- A request for an operation that no call fails for. -/
structure Asks (r : Request) (op : Operation) : Prop where
  complete : r.Complete
  calm : Calm r.outcomes
  operation : operationOf r = .ok op

theorem ordinary_of_asks {op : Operation} (hr : Asks r op)
    (hfits : r.header.opcode = opReqList → Fits s.files) : Ordinary s r :=
  ⟨hr.complete, hr.calm, hfits⟩

theorem Asks.opcode {op : Operation} (hr : Asks r op) : r.header.opcode = op.opcode :=
  (decode_ok_iff.mp hr.operation).1.symm

theorem respond_list (h : Inv host s) (hfits : Fits s.files) (hr : Asks r .list) :
    ∃ s' us entries, respond host s r = some (s', frame opRespListData us (listBody entries)) ∧
      Encodable entries ∧ Lists (fun n => (node s.files n).current) entries := by
  obtain ⟨s', l', hrespond, -, msg, hanswered, hsent, hlen⟩ :=
    respond_ends h (ordinary_of_asks hr fun _ => hfits)
  rw [hr.operation] at hanswered
  generalize node s'.files = σ' at hanswered
  cases hanswered with
  | forbidden hop hname => exact absurd rfl hop
  | @listed entries us hlists =>
    refine ⟨s', us, entries, ?_, ⟨fun e he => ?_, hlen⟩, hlists⟩
    · rw [hrespond]
      exact congrArg (fun bytes => some (s', bytes)) hsent
    · obtain ⟨f, hf, -⟩ := (hlists.mem_iff e).mp he
      exact (h.sound e.name f hf).valid.short

/-- The plain request for an operation whose lengths fit their fields. -/
theorem plainRequest_asks {clientFd : ℕ} (op : Operation) (hlong : ¬ TooLong op) :
    Asks (plainRequest clientFd op.opcode (payloadOf op)) op := by
  constructor
  · change (UInt32.ofNat (payloadOf op).length).toNat = (payloadOf op).length
    rw [UInt32.toNat_ofNat']
    have hlen := (not_or.mp hlong).2
    exact Nat.mod_eq_of_lt (by omega)
  · constructor <;> exact nofun
  · exact decode_ok_iff.mpr ⟨rfl, carries_payloadOf hlong⟩

theorem lister_asks : Asks (plainRequest 0 opReqList []) .list :=
  plainRequest_asks .list (by simp [TooLong, nameOf, payloadOf])

theorem lists_name {files : Bytes → Option File} {entries : List Dirent} (h : Lists files entries)
    (hfile : ∀ f, files name = some f → f.bytes.length < 2 ^ 64 ∧ f.mode < 2 ^ 32) :
    (∀ e ∈ entries, e.name ≠ name) ↔ files name = none := by
  constructor
  · intro hno
    cases hf : files name with
    | none => rfl
    | some f =>
      obtain ⟨hsize, hmode⟩ := hfile f hf
      have hmem := (h.mem_iff ⟨name, UInt64.ofNat f.bytes.length, UInt32.ofNat f.mode⟩).mpr
        ⟨f, hf, by rw [UInt64.toNat_ofNat', Nat.mod_eq_of_lt hsize],
          by rw [UInt32.toNat_ofNat', Nat.mod_eq_of_lt hmode]⟩
      exact absurd rfl (hno _ hmem)
  · intro hnone e he heq
    obtain ⟨f, hf, -⟩ := (h.mem_iff e).mp he
    rw [heq, hnone] at hf
    cases hf

theorem lists_sound (h : Inv host s) {entries : List Dirent}
    (hlists : Lists (fun n => (node s.files n).current) entries) :
    (∀ e ∈ entries, e.name ≠ name) ↔ (node s.files name).current = none := by
  apply lists_name hlists
  intro f hf
  have hsize := (h.sound name f hf).size
  have hmode := (h.sound name f hf).mode
  constructor <;> omega

end Asking

/-- An upload to an empty directory, and a download of what it has left. -/
def sampleExchanges : List (Request × Bytes) :=
  [(plainRequest 5 opReqUpload (uploadPayload [0x61] [1, 2]),
      frame opRespOk 0 (metricsBody 0 0 0)),
    (plainRequest 6 opReqDownload (namePayload [0x61]), fileFrame 0 [1, 2])]

def sampleStored : Server where
  files := AList.insert [0x61] { current := some ⟨[1, 2], 0o644⟩ } ∅

theorem plainRequest_ordinary {s : Server} {clientFd : ℕ} {opcode : UInt16} {payload : Bytes}
    (hlen : payload.length < 2 ^ 32) (hop : opcode ≠ opReqList) :
    Ordinary s (plainRequest clientFd opcode payload) := by
  constructor
  · change (UInt32.ofNat payload.length).toNat = payload.length
    rw [UInt32.toNat_ofNat']
    exact Nat.mod_eq_of_lt hlen
  · constructor <;> exact nofun
  · intro hlist
    exact absurd hlist hop

theorem sampleExchanges_run :
    Run (Where (ServerStep sampleHost) fun s x _ => Ordinary s x.1) {} sampleExchanges
      sampleStored := by
  have hstored : ServerStep sampleHost {} (sampleExchanges.get ⟨0, by decide⟩) sampleStored := rfl
  have hread : ServerStep sampleHost sampleStored (sampleExchanges.get ⟨1, by decide⟩)
      sampleStored := rfl
  exact Run.cons ⟨hstored, plainRequest_ordinary (by decide) (by decide)⟩
    (Run.single ⟨hread, plainRequest_ordinary (by decide) (by decide)⟩)

theorem server_refines_catalog_sample :
    (∃ m, Run (CatalogStep sampleHost) ∅ sampleExchanges m ∧
        Abstracts (node sampleStored.files) m) ∧
      ∀ r, Ordinary sampleStored r → ∃ s' bytes, ServerStep sampleHost sampleStored (r, bytes) s' :=
  server_refines_catalog (fun _ _ => rfl) sampleExchanges_run

end NervFS.Catalog
