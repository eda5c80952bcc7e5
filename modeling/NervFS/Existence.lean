import NervFS.Catalog
import NervFS.ListDecoding

/-!
A listing goes by `stat` and a download by `open`, and the handler answers every failure of
the open with 404. On a host that checks the permissions of the owner, the two agree on
which names exist in exactly those states whose files may all be read by their owner and
whose listing fits its frame.
-/
namespace NervFS.Existence

open Programs Transitions Calls Protocol FileOps Handlers Requests Operations Kernel Responses
open Alone Listings ListDecoding FailedUploads World Replies Workers Serving Catalog

/-- The server owns its files and is not privileged. -/
structure OwnerChecks (host : Host) : Prop where
  read : ∀ mode, host.permits .read mode = true ↔ mode &&& 0o400 ≠ 0
  write : ∀ mode, host.permits .write mode = true ↔ mode &&& 0o200 ≠ 0

def OwnerReads (mode : ℕ) : Prop := mode &&& 0o400 ≠ 0

instance (mode : ℕ) : Decidable (OwnerReads mode) := inferInstanceAs (Decidable (_ ≠ 0))

/-- A download of a valid name is answered with 404 exactly when a listing that is asked
for in the same state lacks the name. -/
def Agrees (host : Host) (s : Server) : Prop :=
  ∀ (lister reader : Request) (name : Bytes), Asks lister .list → Asks reader (.download name) →
    ValidName host.root pathMax name → ∃ s₁ us entries s₂ bytes, Encodable entries ∧
      respond host s lister = some (s₁, frame opRespListData us (listBody entries)) ∧
      respond host s reader = some (s₂, bytes) ∧
      (bytes = errorFrame errNotFound msgNotFound ↔ ∀ e ∈ entries, e.name ≠ name)

/-- The owner may read every file. -/
def Readable (σ : Bytes → Node) : Prop := ∀ name, ∀ f ∈ (σ name).current, OwnerReads f.mode

/-- The request gives no file a mode that its owner may not read. -/
def KeepsReadable (host : Host) (s : Server) (r : Request) : Prop :=
  match operationOf r with
  | .ok (.upload name _) => ValidName host.root pathMax name →
    (node s.files name).current = none → OwnerReads host.newMode
  | .ok (.chmod name mode) => ValidName host.root pathMax name →
    (node s.files name).current ≠ none → OwnerReads mode.toNat
  | _ => True

section Responses
variable {host : Host} {s : Server} {r : Request} {name : Bytes}

/-- A download reports a missing file when there is none that it may read. -/
theorem respond_download (h : Inv host s) (hr : Asks r (.download name))
    (hname : ValidName host.root pathMax name) :
    ∃ s' bytes, respond host s r = some (s', bytes) ∧
      (bytes = errorFrame errNotFound msgNotFound ↔
        ∀ f ∈ (node s.files name).current, host.permits .read f.mode = false) := by
  have hno : r.header.opcode = opReqList → Fits s.files := by
    intro hlist
    rw [hr.opcode] at hlist
    exact absurd hlist (show opReqDownload ≠ opReqList by decide)
  obtain ⟨s', l', hrespond, -, msg, hanswered, hsent, -⟩ :=
    respond_ends h (ordinary_of_asks hr hno)
  rw [hr.operation] at hanswered
  refine ⟨s', l'.sent, hrespond, ?_⟩
  rw [show l'.sent = frame msg.opcode msg.elapsedUs msg.body from hsent]
  generalize node s'.files = σ' at hanswered
  cases hanswered with
  | forbidden hop hinvalid => exact absurd hname hinvalid
  | @sent _ f us hvalid hf hperm =>
    constructor
    · intro heq
      exact absurd (frame_inj heq).1 (show opRespFileData ≠ opRespErr by decide)
    · intro hall
      rw [hall f hf] at hperm
      cases hperm
  | unread hvalid hperm => exact iff_of_true rfl hperm

theorem reader_asks (hname : ValidName host.root pathMax name) :
    Asks (plainRequest 0 opReqDownload (namePayload name)) (.download name) := by
  have hlen : name.length ≤ 255 := hname.short
  apply plainRequest_asks (.download name)
  simp only [TooLong, nameOf, payloadOf, namePayload, List.length_append,
    BigEndian.toBytes_length]
  omega

theorem fits_of_agrees (h : Inv host s) (hagrees : Agrees host s) : Fits s.files := by
  by_contra hbig
  have hne : names s.files ≠ [] := by
    intro hnil
    unfold Fits at hbig
    rw [hnil] at hbig
    exact hbig (by decide)
  obtain ⟨name, hmem⟩ := List.exists_mem_of_ne_nil _ hne
  obtain ⟨f, hf⟩ := Option.ne_none_iff_exists'.mp (mem_names.mp hmem)
  have hvalid := (h.sound name f hf).valid
  obtain ⟨s₁, us, entries, s₂, bytes, -, hl, -⟩ :=
    hagrees _ _ name lister_asks (reader_asks hvalid) hvalid
  unfold respond at hl
  rw [request_stuck lister_asks.complete lister_asks.calm h.sound lister_asks.operation hbig] at hl
  cases hl

theorem agrees_iff (howner : OwnerChecks host) (h : Inv host s) :
    Agrees host s ↔ Fits s.files ∧ Readable (node s.files) := by
  constructor
  · intro hagrees
    have hfits := fits_of_agrees h hagrees
    refine ⟨hfits, fun name f hf => ?_⟩
    by_contra hmode
    have hvalid := (h.sound name f hf).valid
    have hlist := lister_asks
    have hread := reader_asks hvalid
    obtain ⟨s₁, us, entries, s₂, bytes, henc, hl, hd, hiff⟩ := hagrees _ _ name hlist hread hvalid
    obtain ⟨s₁', us', entries', hl', henc', hlists⟩ := respond_list h hfits hlist
    obtain ⟨s₂', bytes', hd', hiff'⟩ := respond_download h hread hvalid
    rw [hl] at hl'
    rw [hd] at hd'
    cases hd'
    have hbody := (frame_inj (Prod.mk.inj (Option.some.inj hl')).2).2
    rw [← listBody_inj henc henc' hbody] at hlists
    have hrefused : ∀ g ∈ (node s.files name).current, host.permits .read g.mode = false := by
      intro g hg
      rw [hf] at hg
      cases hg
      exact Bool.eq_false_iff.mpr fun hperm => hmode ((howner.read f.mode).mp hperm)
    have hnone := (lists_sound h hlists).mp (hiff.mp (hiff'.mpr hrefused))
    rw [hf] at hnone
    cases hnone
  · intro hand lister reader name hlist hread hname
    obtain ⟨hfits, hreadable⟩ := hand
    obtain ⟨s₁, us, entries, hl, henc, hlists⟩ := respond_list h hfits hlist
    obtain ⟨s₂, bytes, hd, hiff⟩ := respond_download h hread hname
    refine ⟨s₁, us, entries, s₂, bytes, henc, hl, hd, ?_⟩
    rw [hiff, lists_sound h hlists]
    constructor
    · intro hrefused
      cases hcur : (node s.files name).current with
      | none => rfl
      | some f =>
        have hperm := (howner.read f.mode).mpr (hreadable name f hcur)
        rw [hrefused f hcur] at hperm
        cases hperm
    · intro hnone f hf
      rw [hnone] at hf
      cases hf

theorem readable_update {σ : Bytes → Node} {v : Node} (h : Readable σ)
    (hv : ∀ f ∈ v.current, OwnerReads f.mode) : Readable (Function.update σ name v) := by
  intro n f hf
  by_cases hn : n = name
  · subst hn
    rw [Function.update_self] at hf
    exact hv f hf
  · rw [Function.update_of_ne hn] at hf
    exact h n f hf

theorem readable_step {σ' : Bytes → Node} {msg : Message} (hkeeps : KeepsReadable host s r)
    (hanswered : Answered host (node s.files) (operationOf r) σ' msg)
    (h : Readable (node s.files)) : Readable σ' := by
  unfold KeepsReadable at hkeeps
  generalize operationOf r = request at hanswered hkeeps
  cases hanswered with
  | @stored name body us networkUs writeUs syncUs hname hopen =>
    apply readable_update h
    intro f hf
    cases hf
    change OwnerReads (modeAfter host (node s.files name))
    unfold modeAfter
    cases hcur : (node s.files name).current with
    | none => exact hkeeps hname hcur
    | some f =>
      unfold OwnerReads
      rw [modeWritten_and rfl]
      exact h name f hcur
  | deleted us hname hf => exact readable_update h nofun
  | @changed name mode us hname hf =>
    apply readable_update h
    intro f hmem
    obtain ⟨g, -, rfl⟩ := Option.map_eq_some_iff.mp hmem
    have hbit := hkeeps hname hf
    unfold OwnerReads at hbit ⊢
    rw [Nat.and_assoc]
    exact hbit
  | _ => exact h

/-- Listings and downloads agree in a state that the server can reach exactly when its
listing fits and every file in it is readable; a run that keeps the files readable only
reaches such states as long as the listing fits. -/
theorem downloads_agree_iff (howner : OwnerChecks host) :
    (∀ xs s, Run (Where (ServerStep host) fun s x _ => Ordinary s x.1) {} xs s →
      (Agrees host s ↔ Fits s.files ∧ Readable (node s.files))) ∧
    ∀ xs s, Run (Where (ServerStep host) fun s x _ => Ordinary s x.1 ∧ KeepsReadable host s x.1)
      {} xs s → (Agrees host s ↔ Fits s.files) := by
  constructor
  · intro xs s hrun
    exact agrees_iff howner (hrun.invariant inv_start
      fun s x s' hi hs => inv_step hi hs.2 hs.1)
  · intro xs s hrun
    have hinv : Inv host s ∧ Readable (node s.files) := by
      apply hrun.invariant (I := fun s => Inv host s ∧ Readable (node s.files))
      · exact ⟨inv_start, nofun⟩
      · intro s x s' hi hs
        obtain ⟨hstep, hordinary, hkeeps⟩ := hs
        obtain ⟨-, msg, hanswered, -⟩ := serverStep_ends hi.1 hordinary hstep
        exact ⟨inv_step hi.1 hordinary hstep, readable_step hkeeps hanswered hi.2⟩
    rw [agrees_iff howner hinv.1]
    exact and_iff_left hinv.2

end Responses

def ownerHost : Host where
  root := asciiBytes "storage"
  umask := 0o022
  permits kind mode :=
    match kind with
    | .read => mode &&& 0o400 ≠ 0
    | .write => mode &&& 0o200 ≠ 0

theorem ownerHost_checks : OwnerChecks ownerHost :=
  ⟨fun _ => decide_eq_true_iff, fun _ => decide_eq_true_iff⟩

/-- An upload, and a chmod that takes all permissions from the file. -/
def closing : List (Request × Bytes) :=
  [(plainRequest 5 opReqUpload (uploadPayload [0x61] [1, 2]),
      frame opRespOk 0 (metricsBody 0 0 0)),
    (plainRequest 6 opReqChmod (chmodPayload [0x61] 0), frame opRespOk 0 [])]

def closed : Server where
  files := AList.insert [0x61] { current := some ⟨[1, 2], 0⟩ } ∅

theorem closing_run :
    Run (Where (ServerStep ownerHost) fun s x _ => Ordinary s x.1) {} closing closed := by
  have hstored : ServerStep ownerHost {} (closing.get ⟨0, by decide⟩) sampleStored := rfl
  have hclosed : ServerStep ownerHost sampleStored (closing.get ⟨1, by decide⟩) closed := rfl
  exact Run.cons ⟨hstored, plainRequest_ordinary (by decide) (by decide)⟩
    (Run.single ⟨hclosed, plainRequest_ordinary (by decide) (by decide)⟩)

theorem downloads_agree_iff_owner :
    (∀ xs s, Run (Where (ServerStep ownerHost) fun s x _ => Ordinary s x.1) {} xs s →
      (Agrees ownerHost s ↔ Fits s.files ∧ Readable (node s.files))) ∧
    ∀ xs s, Run (Where (ServerStep ownerHost) fun s x _ => Ordinary s x.1 ∧
      KeepsReadable ownerHost s x.1) {} xs s → (Agrees ownerHost s ↔ Fits s.files) :=
  downloads_agree_iff ownerHost_checks

/-- The file is listed, and a download does not find it. -/
theorem unreadable_listed_not_found :
    Run (Where (ServerStep ownerHost) fun s x _ => Ordinary s x.1) {} closing closed ∧
      ¬ Agrees ownerHost closed := by
  refine ⟨closing_run, fun hagrees => ?_⟩
  have hinv : Inv ownerHost closed := closing_run.invariant inv_start
    fun s x s' hi hs => inv_step hi hs.2 hs.1
  have hreadable := ((agrees_iff ownerHost_checks hinv).mp hagrees).2 [0x61] ⟨[1, 2], 0⟩ rfl
  exact absurd hreadable (by decide)

end NervFS.Existence
