import NervFS.FailedUploads
import NervFS.Serialization

/-!
Uploads, downloads, deletes and mode changes that run at the same time answer as if they
had run one after another. When no lock is refused and no write is cut short, the files
of such a serial run hold whole bodies only, so a download delivers one of them.
-/
namespace NervFS.WholeFiles

open Programs KeyedStore KeyedStore.Semantics Transitions Calls Protocol FileOps Handlers
open Requests Kernel Responses Alone FailedUploads Sections Workers Holding Serialization

/-- Every fcntl lock is granted and every write takes all that it is offered. -/
structure Unhindered (o : Outcomes) : Prop where
  locks : ∀ b ∈ o.setlkws, b = true
  writes : ∀ w ∈ o.writes, w = .all

/-- Every directory entry is as `N` wants it for its name. -/
def Holds (N : Bytes → Node → Prop) (σ : Bytes → Node) : Prop := ∀ name, N name (σ name)

/-- The file of the entry, if there is one, has one of the contents that `W` allows. -/
def Whole (W : Bytes → Bytes → Prop) (name : Bytes) (v : Node) : Prop :=
  ∀ f ∈ v.current, W name f.bytes

section Alone
variable {N : Bytes → Node → Prop} {W : Bytes → Bytes → Prop} {host : Host} {σ : Bytes → Node}
  {l : Local} {fd : ℕ}
variable {name : Bytes}

theorem Holds.update {v : Node} (h : Holds N σ) (hv : N name v) :
    Holds N (Function.update σ name v) := by
  intro n
  by_cases hn : n = name
  · subst hn
    rw [Function.update_self]
    exact hv
  · rw [Function.update_of_ne hn]
    exact h n

theorem locks_of_unhindered (h : Unhindered l.outcomes) : Locks l := by
  unfold Locks
  cases hs : l.outcomes.setlkws with
  | nil => rfl
  | cons b bs => exact h.locks b (by rw [hs]; exact List.mem_cons_self)

theorem written_of_unhindered (h : Unhindered l.outcomes) (body : Bytes) :
    written l body = some body.length := by
  unfold written
  cases hw : l.outcomes.writes with
  | nil => rfl
  | cons w ws =>
    have hall : w = .all := h.writes w (by rw [hw]; exact List.mem_cons_self)
    rw [hall]
    rfl

/-- An error response leaves the storage alone, whether or not it goes out. -/
theorem sendError_holds (errCode : UInt16) (msg : Bytes) (hmsg : msg.length < 65536)
    (hσ : Holds N σ) :
    (sendError fd errCode msg).wp (semantics host).handle (fun _ s => Holds N s.1) (σ, l) :=
  wp_own (sendError_own host fd errCode msg hmsg) fun _ _ => hσ

theorem sendMessage_holds (opcode : UInt16) (payload : Option Bytes) (payloadLen : UInt32)
    (us : UInt64) (hfit : ∀ buf ∈ payload, payloadLen.toNat ≤ buf.length) (hσ : Holds N σ) :
    (sendMessage fd opcode payload payloadLen us).wp (semantics host).handle
      (fun _ s => Holds N s.1) (σ, l) :=
  wp_own (sendMessage_own host fd opcode payload payloadLen us hfit) fun _ _ => hσ

theorem uploadLocked_holds (body : Bytes) (networkUs : UInt64) (hbody : body.length < 2 ^ 64)
    (hl : Unhindered l.outcomes)
    (hN : ∀ v, N name v → N name (v.put ⟨body, modeAfter host v⟩)) (hσ : Holds N σ) :
    (uploadLocked fd (joinPath host.root name) name body (UInt64.ofNat body.length)
      networkUs).wp (semantics host).handle (fun _ s => Holds N s.1) (σ, l) := by
  refine uploadLocked_wp body networkUs hbody (fun _ l₁ _ => ?_) ?_ ?_ ?_
  · exact sendError_holds _ _ (by decide) hσ
  · exact fun _ hlock => absurd (locks_of_unhindered hl) hlock
  · exact fun _ _ hcut => absurd (written_of_unhindered hl body) hcut
  · intro _ _ _ l₁ writeUs syncUs us _
    refine sendMessage_holds _ _ _ _ ?_ (hσ.update (hN _ (hσ name)))
    rintro buf ⟨⟩
    rw [metricsBody_length]
    decide

theorem namedOf_holds {γ : Type} {fields : Except Bytes (Bytes × γ)}
    {act : Bytes → Bytes → γ → Prog Unit}
    (hmsg : ∀ msg, fields = .error msg → msg.length < 65536) (hσ : Holds N σ)
    (hact : ∀ name rest, fields = .ok (name, rest) → ValidName host.root pathMax name →
      (act (joinPath host.root name) name rest).wp (semantics host).handle
        (fun _ s => Holds N s.1) (σ, l)) :
    (namedOf host.root fd fields act).wp (semantics host).handle
      (fun _ s => Holds N s.1) (σ, l) :=
  namedOf_wp (fun msg hf => sendError_holds _ msg (hmsg msg hf) hσ)
    (fun _ _ _ _ => sendError_holds _ _ (by decide) hσ) hact

/-- What the request does to an entry keeps the entry as `N` wants it. -/
structure Keeps (host : Host) (N : Bytes → Node → Prop) (r : Request) : Prop where
  upload : r.header.opcode = opReqUpload → ∀ name body v,
    uploadFields r.payload = .ok (name, body) →
    N name v → N name (v.put ⟨body, modeAfter host v⟩)
  delete : r.header.opcode = opReqDelete → ∀ name v, N name v → N name (removed v)
  chmod : r.header.opcode = opReqChmod → ∀ name mode v, N name v → N name (rechmod mode v)

theorem request_holds (r : Request) (hcomplete : r.Complete) (hnames : r.NamesFile)
    (hr : Unhindered l.outcomes) (hN : Keeps host N r) (hσ : Holds N σ) :
    (r.prog host).wp (semantics host).handle (fun _ s => Holds N s.1) (σ, l) := by
  unfold Request.prog dispatchRequestTimed
  refine quiet_wp (idle_own rfl) rfl fun _ => ?_
  rcases hnames with h | h | h | h
  · rw [if_pos h, handleUploadTimed_eq _ _ _ _ _ hcomplete]
    refine clock_wp fun netEnd => namedOf_holds (fun _ => uploadFields_error_length) hσ ?_
    intro name body hf hname
    have hbody : body.length < 2 ^ 64 := by
      have hle := uploadFields_body_length hf
      have hlt := r.header.payloadLen.toNat_lt
      unfold Request.Complete at hcomplete
      omega
    refine quiet_wp (idle_acquire rfl) rfl fun _ => ?_
    exact uploadLocked_holds body _ hbody ⟨hr.locks, hr.writes⟩
      (fun v => hN.upload h name body v hf) hσ
  · rw [if_neg (by rw [h]; decide), if_pos h, handleDownload_eq _ _ _ _ hcomplete]
    refine namedOf_holds (fun _ => nameField_error_length (by decide) (by decide)) hσ ?_
    intro name _ _ _
    refine quiet_wp (idle_acquire rfl) rfl fun _ => ?_
    exact wp_shared downloadLocked_sectioned fun _ _ => hσ
  · rw [if_neg (by rw [h]; decide), if_neg (by rw [h]; decide), if_neg (by rw [h]; decide),
      if_pos h, handleDelete_eq _ _ _ _ hcomplete]
    refine namedOf_holds (fun _ => nameField_error_length (by decide) (by decide)) hσ ?_
    intro name _ _ _
    refine deleteAct_wp (fun _ l₁ _ => sendError_holds _ _ (by decide) hσ) fun _ l₁ us _ => ?_
    exact sendMessage_holds _ _ _ _ nofun (hσ.update (hN.delete h name _ (hσ name)))
  · rw [if_neg (by rw [h]; decide), if_neg (by rw [h]; decide), if_neg (by rw [h]; decide),
      if_neg (by rw [h]; decide), if_pos h, handleChmod_eq _ _ _ _ hcomplete]
    refine namedOf_holds (fun _ => chmodFields_error_length) hσ ?_
    intro name mode _ _
    refine chmodAct_wp (fun _ l₁ _ => sendError_holds _ _ (by decide) hσ) fun _ l₁ us _ => ?_
    exact sendMessage_holds _ _ _ _ nofun (hσ.update (hN.chmod h name mode _ (hσ name)))

/-- The message is a file response whose body is the whole of one content. -/
def DeliversWhole (W : Bytes → Bytes → Prop) (payload : Bytes) (l l' : Local) : Prop :=
  responseOpcode l l' = some opRespFileData → ∃ name c us,
    nameField msgDownloadTooShort msgDownloadMalformed payload = .ok name ∧
    W name c ∧ l'.sent = l.sent ++ fileFrame us c

theorem sendError_deliversWhole {payload : Bytes} (errCode : UInt16) {msg : Bytes} {l₁ : Local}
    (hmsg : msg.length < 65536) (h : Silent l l₁) (hl : Delivers l) :
    (sendError fd errCode msg).wp (semantics host).handle
      (fun _ s => DeliversWhole W payload l s.2) (σ, l₁) := by
  refine sendError_wp errCode msg hmsg (h.delivers hl) ?_ fun l' hsent hop => ?_
  · intro _ hop
    have hsame : l₁.popMalloc.sent = l.sent := h.sent
    unfold responseOpcode at hop
    rw [hsame, List.drop_length] at hop
    exact absurd hop (by decide)
  · rw [responseOpcode_error (h.sent ▸ hsent)] at hop
    exact absurd hop (by decide)

theorem download_deliversWhole (host : Host) (r : Request) (hcomplete : r.Complete)
    (hop : r.header.opcode = opReqDownload) (hl : Delivers l) (hσ : Holds (Whole W) σ) :
    (r.prog host).wp (semantics host).handle
      (fun _ s => DeliversWhole W r.payload l s.2) (σ, l) := by
  have hsame : Silent l l := ⟨rfl, rfl, rfl⟩
  unfold Request.prog dispatchRequestTimed
  refine quiet_wp (idle_own rfl) rfl fun _ => ?_
  rw [if_neg (by rw [hop]; decide), if_pos hop, handleDownload_eq _ _ _ _ hcomplete]
  refine namedOf_wp (fun msg hf => ?_) (fun _ _ _ _ => ?_) fun name rest hf _ => ?_
  · exact sendError_deliversWhole _ (nameField_error_length (by decide) (by decide) hf) hsame hl
  · exact sendError_deliversWhole _ (by decide) hsame hl
  · refine quiet_wp (idle_acquire rfl) rfl fun _ => downloadLocked_wp hl ?_ ?_ ?_
    · exact fun _ l₁ h₁ => sendError_deliversWhole _ (by decide) h₁ hl
    · exact fun _ l₁ h₁ => sendError_deliversWhole _ (by decide) h₁ hl
    · intro _ f hfile l' us hsent _
      refine ⟨name, f.bytes, us, ?_, hσ name f hfile, hsent⟩
      cases hfield : nameField msgDownloadTooShort msgDownloadMalformed r.payload with
      | error msg =>
        rw [hfield] at hf
        cases hf
      | ok n =>
        rw [hfield] at hf
        cases hf
        rfl

end Alone

section Runs
variable {W : Type} [DecidableEq W] {host : Host} {requests : List Request} {σ₀ : Bytes → Node}

/-- The requests of a list, each ready to be run from its beginning. -/
def ready (host : Host) (requests : List Request) (t : Fin requests.length) : Prog Unit × Local :=
  ((requests.get t).prog host, (requests.get t).loc)

/-- The initial content of the file, or the body of one upload of it. -/
def OneBody {T : Type} (request : T → Request) (σ₀ : Bytes → Node) (name c : Bytes) : Prop :=
  content σ₀ name = some c ∨ ∃ t, (request t).header.opcode = opReqUpload ∧
    uploadFields (request t).payload = .ok (name, c)

theorem whole_start {T : Type} (request : T → Request) (σ₀ : Bytes → Node) :
    Holds (Whole (OneBody request σ₀)) σ₀ :=
  fun name f hf => Or.inl (by rw [content, hf, Option.map_some])

theorem keeps_oneBody {T : Type} (host : Host) (request : T → Request) (σ₀ : Bytes → Node)
    (t : T) : Keeps host (Whole (OneBody request σ₀)) (request t) where
  upload hop name body v hf _ := by
    rintro f ⟨⟩
    exact Or.inr ⟨t, hop, hf⟩
  delete _ name v _ := nofun
  chmod _ name mode v hv := by
    intro f hf
    obtain ⟨g, hg, rfl⟩ := Option.map_eq_some_iff.mp hf
    exact hv g hg

theorem serial_holds (hok : ∀ r ∈ requests, r.Complete ∧ r.NamesFile)
    (hr : ∀ r ∈ requests, Unhindered r.outcomes) {ts : List (Fin requests.length)}
    {σ : Bytes → Node} {outs : Fin requests.length → Option (Unit × Local)}
    (h : Serial (semantics host) (ready host requests) σ₀ ts σ outs) :
    ∀ t a l', outs t = some (a, l') → ∃ σ σ',
      Holds (Whole (OneBody requests.get σ₀)) σ ∧
        (ready host requests t).1.run (semantics host).handle
        (σ, (ready host requests t).2) = some (a, σ', l') := by
  refine (h.invariant (whole_start _ σ₀) fun t σ a σ' l' hσ hrun => ?_).2
  have hmem : requests.get t ∈ requests := List.get_mem ..
  obtain ⟨b, s, hrun', hs⟩ := request_holds (l := (requests.get t).loc) (requests.get t)
    (hok _ hmem).1 (hok _ hmem).2 (hr _ hmem) (keeps_oneBody host requests.get σ₀ t) hσ
  rw [ready, hrun'] at hrun
  cases hrun
  exact hs

/-- Every interleaving of the requests answers and stores as a serial run that respects the
order in which the names were locked; and a file that is sent is one whole body. -/
theorem pool_serializable (host : Host) (requests : List Request) (σ₀ : Bytes → Node)
    (hok : ∀ r ∈ requests, r.Complete ∧ r.NamesFile) {ls : List (PoolLabel W)}
    {s : Pool W (Fin requests.length)}
    (h : Run (PoolStep host) (openPool W host requests σ₀) ls s) :
    ((∀ t, (s.sys.service t).prog = .ret ()) →
      ∃ order outs, s.sys.acquired <+: order ∧ order.Nodup ∧ (∀ t, t ∈ order) ∧
        Serial (semantics host) (ready host requests) σ₀ order s.sys.storage outs ∧
        ∀ t, outs t = some ((), (s.sys.service t).loc)) ∧
    ((∀ r ∈ requests, Unhindered r.outcomes) → ∀ t, (s.sys.service t).prog = .ret () →
      (requests.get t).header.opcode = opReqDownload → Delivers (requests.get t).loc →
      DeliversWhole (OneBody requests.get σ₀) (requests.get t).payload (requests.get t).loc
        (s.sys.service t).loc) := by
  have hoks : ∀ t : Fin requests.length, (requests.get t).Complete ∧ (requests.get t).NamesFile :=
    fun t => hok _ (List.getElem_mem ..)
  obtain ⟨ks, hprocess⟩ := poolRun_process h
  obtain ⟨ls', c, hrun, hR, hacq⟩ := process_refines hoks hprocess
  have hsec : ∀ t, (semantics host).Sectioned .before (ready host requests t).1 :=
    fun t => request_sectioned host _ (hoks t).1 (hoks t).2
  constructor
  · intro hdone
    obtain ⟨order, outs, hpre, hnd, hall, hser, hout⟩ :=
      serializable hsec hrun (fun _ => ()) fun t => (hR.prog t).trans (hdone t)
    refine ⟨order, outs, hacq ▸ hpre, hnd, hall, hR.store ▸ hser, fun t => ?_⟩
    rw [hout t, hR.loc t]
  · intro hr t hdone hop hl
    have hmem : requests.get t ∈ requests := List.get_mem ..
    obtain ⟨σs, outs, hser, hreturned⟩ := returned_serial hsec hrun
    obtain ⟨σ, σ', hσ, hrun'⟩ : ∃ σ σ', Holds (Whole (OneBody requests.get σ₀)) σ ∧
        ((requests.get t).prog host).run (semantics host).handle (σ, (requests.get t).loc) =
          some ((), σ', (s.sys.service t).loc) := by
      rw [← hR.loc t]
      rcases hreturned t () ((hR.prog t).trans hdone) with hout | hany
      · exact serial_holds hok hr hser t () _ hout
      · exact ⟨σ₀, σ₀, whole_start _ σ₀, hany σ₀⟩
    obtain ⟨a, s', hrun'', hwhole⟩ :=
      download_deliversWhole host (requests.get t) (hoks t).1 hop
        hl hσ
    rw [hrun'] at hrun''
    cases hrun''
    exact hwhole

end Runs

/-- A download that waits for an upload of the same name. -/
def sampleRequests : List Request :=
  [plainRequest 5 opReqUpload (uploadPayload [0x61] [1, 2]),
    plainRequest 6 opReqDownload (namePayload [0x61])]

/-- The second worker reaches the name lock while the first one holds it. -/
def overtaken : List (PoolLabel Bool) :=
  [.take true, .take false] ++ List.replicate 3 (.call true (some 1)) ++
    List.replicate 2 (.call false (some 2)) ++ List.replicate 12 (.call true (some 2)) ++
    List.replicate 14 (.call false (some 2)) ++ [.finish true, .finish false]

theorem overtaken_returns :
    ((follow (guarded (poolNext sampleHost) fun _ a => a.Allocates)
      (openPool Bool sampleHost sampleRequests sampleFile) overtaken).map fun s =>
        (List.finRange _).map fun t => (s.sys.service t).prog.result) =
      some [some (), some ()] := by
  decide +kernel

theorem pool_serializable_overtaken :
    ∃ s : Pool Bool (Fin sampleRequests.length),
      Run (PoolStep sampleHost) (openPool Bool sampleHost sampleRequests sampleFile)
        overtaken s ∧
      (∃ order outs, s.sys.acquired <+: order ∧ Serial (semantics sampleHost)
        (ready sampleHost sampleRequests) sampleFile order s.sys.storage outs) ∧
      DeliversWhole (OneBody sampleRequests.get sampleFile) (namePayload [0x61]) {}
        (s.sys.service ⟨1, by decide⟩).loc := by
  obtain ⟨s, hs, hreturned⟩ := Option.map_eq_some_iff.mp overtaken_returns
  have hdone : ∀ t, (s.sys.service t).prog = .ret () := by
    obtain ⟨h0, h1⟩ : (s.sys.service ⟨0, by decide⟩).prog.result = some () ∧
        (s.sys.service ⟨1, by decide⟩).prog.result = some () := by
      simpa [sampleRequests, List.finRange_succ] using hreturned
    rintro ⟨_ | _ | n, hn⟩
    · exact Program.result_eq_some.mp h0
    · exact Program.result_eq_some.mp h1
    · exact absurd hn (by simp [sampleRequests])
  have hok : ∀ r ∈ sampleRequests, r.Complete ∧ r.NamesFile := by
    unfold Request.Complete Request.NamesFile
    decide
  have hrun := run_of_guarded hs
  obtain ⟨hserial, hwhole⟩ := pool_serializable sampleHost sampleRequests sampleFile hok hrun
  refine ⟨s, hrun, ?_, ?_⟩
  · obtain ⟨order, outs, hpre, -, -, hser, -⟩ := hserial hdone
    exact ⟨order, outs, hpre, hser⟩
  · refine hwhole ?_ _ (hdone _) rfl (by unfold Delivers; decide)
    intro r hr
    simp only [sampleRequests, List.mem_cons, List.not_mem_nil, or_false] at hr
    rcases hr with rfl | rfl <;> exact ⟨nofun, nofun⟩

end NervFS.WholeFiles
