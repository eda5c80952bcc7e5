import NervFS.Alone

/-!
What an upload that fails leaves behind. The destructive open comes before the lock and
the write, so a refusal by either of them answers with an error after the old content
is gone; the file survives an error response only when nothing was lost by it.
-/
namespace NervFS.FailedUploads

open Programs KeyedStore KeyedStore.Semantics Calls Protocol FileOps Handlers Requests Kernel
open Responses Alone

/-- The opcode of the response that a run sent. -/
def responseOpcode (l l' : Local) : Option UInt16 :=
  (parseHeader (l'.sent.drop l.sent.length)).map Header.opcode

/-- Whether a name exists, and the bytes of its file. -/
def content (σ : Bytes → Node) (name : Bytes) : Option Bytes :=
  (σ name).current.map File.bytes

/-- What an upload that could open its file leaves in it. -/
def leftover (l : Local) (body : Bytes) : Bytes :=
  if Locks l then body.take ((written l body).getD 0) else []

/-- The outcomes under which an upload to this entry loses nothing when it fails: the open
is refused, nothing fails after it, or the file already held what the failure leaves. -/
def Harmless (host : Host) (v : Node) (l : Local) (body : Bytes) : Prop :=
  ¬ Opens host v l ∨ (Locks l ∧ written l body = some body.length) ∨
    v.current.map File.bytes = some (leftover l body)

/-- The same for a whole payload; one that is turned away touches no file. -/
def HarmlessPayload (host : Host) (σ : Bytes → Node) (l : Local) (payload : Bytes) : Prop :=
  ∀ name body, uploadFields payload = .ok (name, body) →
    ValidName host.root pathMax name → Harmless host (σ name) l body

section Opcode
variable {l l' : Local}

theorem responseOpcode_frame {opcode : UInt16} {u : UInt64} {body : Bytes}
    (h : l'.sent = l.sent ++ frame opcode u body) : responseOpcode l l' = some opcode := by
  unfold responseOpcode frame at *
  rw [h, List.drop_left, parseHeader_serializeHeader _ _ rfl rfl]
  rfl

theorem responseOpcode_error {errCode : UInt16} {msg : Bytes}
    (h : l'.sent = l.sent ++ errorFrame errCode msg) : responseOpcode l l' = some opRespErr :=
  responseOpcode_frame h

end Opcode

section Upload
variable {host : Host} {fd : ℕ} {name body : Bytes} {σ : Bytes → Node} {l : Local}

/-- An error response leaves every file as it was. -/
def ErrorKeeps (σ : Bytes → Node) (l : Local) (σ' : Bytes → Node) (l' : Local) : Prop :=
  responseOpcode l l' = some opRespErr → ∀ n, content σ' n = content σ n

theorem errorKeeps_same (l l' : Local) (σ : Bytes → Node) : ErrorKeeps σ l σ l' :=
  fun _ _ => rfl

/-- After an error response the file is as it was when it held just what was left. -/
theorem errorKeeps_put {l' : Local} {bytes : Bytes} {mode : ℕ} {errCode : UInt16} {msg : Bytes}
    (h : l'.sent = l.sent ++ errorFrame errCode msg) :
    ErrorKeeps σ l (Function.update σ name ((σ name).put ⟨bytes, mode⟩)) l' ↔
      (σ name).current.map File.bytes = some bytes := by
  constructor
  · intro hk
    have hn := hk (responseOpcode_error h) name
    simpa [content, Node.put] using hn.symm
  · intro hv _ n
    by_cases hn : n = name
    · subst hn
      simp [content, Node.put, hv]
    · simp [content, hn]

theorem uploadLocked_errorKeeps (networkUs : UInt64) (hbody : body.length < 2 ^ 64)
    (hl : Steady l) :
    (uploadLocked fd (joinPath host.root name) name body (UInt64.ofNat body.length)
      networkUs).wp (semantics host).handle
      (fun _ s => ErrorKeeps σ l s.1 s.2 ↔ Harmless host (σ name) l body) (σ, l) := by
  refine uploadLocked_wp body networkUs hbody ?_ ?_ ?_ ?_
  · intro hopen l₁ h₁
    refine sendError_steady_wp _ _ (by decide) (h₁.steady hl) fun l' _ => ?_
    exact iff_of_true (errorKeeps_same l l' σ) (Or.inl hopen)
  · intro hopen hlock l₁ h₁
    refine sendError_steady_wp _ _ (by decide) (h₁.steady hl) fun l' hsent => ?_
    rw [errorKeeps_put (h₁.sent ▸ hsent)]
    simp only [Harmless, leftover, hopen, hlock, not_true_eq_false, false_and, false_or, if_false]
  · intro hopen hlock hcut l₁ h₁
    refine sendError_steady_wp _ _ (by decide) (h₁.steady hl) fun l' hsent => ?_
    rw [errorKeeps_put (h₁.sent ▸ hsent)]
    simp only [Harmless, leftover, hopen, hlock, hcut, not_true_eq_false, and_false, false_or,
      if_true]
  · intro hopen hlock hdone l₁ writeUs syncUs us h₁
    refine sendMetrics_wp networkUs writeUs syncUs us (h₁.steady hl).delivers fun l' hsent => ?_
    refine iff_of_true (fun herr => ?_) (Or.inr (Or.inl ⟨hlock, hdone⟩))
    rw [responseOpcode_frame (h₁.sent ▸ hsent)] at herr
    exact absurd herr (by decide)

/-- A request that is turned away changes nothing, whatever it answers. -/
theorem sendError_errorKeeps (errCode : UInt16) {msg : Bytes} (hmsg : msg.length < 65536)
    (hl : Steady l) {P : Prop} (hP : P) :
    (sendError fd errCode msg).wp (semantics host).handle
      (fun _ s => ErrorKeeps σ l s.1 s.2 ↔ P) (σ, l) :=
  sendError_steady_wp errCode msg hmsg hl fun l' _ => iff_of_true (errorKeeps_same l l' σ) hP

/-- An error response to an upload leaves the named file as it was exactly under harmless
outcomes. -/
theorem upload_error_keeps_iff (host : Host) (clientFd : ℕ) (payload : Bytes)
    (payloadLen : UInt32) (netStart : Timespec) (σ : Bytes → Node) (l : Local)
    (hlen : payloadLen.toNat = payload.length) (hl : Steady l) :
    (handleUploadTimed host.root clientFd payload payloadLen netStart).wp (semantics host).handle
      (fun _ s => ErrorKeeps σ l s.1 s.2 ↔ HarmlessPayload host σ l payload) (σ, l) := by
  rw [handleUploadTimed_eq _ _ _ _ _ hlen]
  refine clock_wp fun netEnd => ?_
  have hsteady : Steady l.popClock := ⟨hl.delivers, hl.mallocs⟩
  refine namedOf_wp (l := l.popClock) (fun msg hf => ?_) (fun name body hf hname => ?_)
    fun name body hf hname => ?_
  · refine sendError_errorKeeps errBadRequest (uploadFields_error_length hf) hsteady ?_
    intro n b hok
    rw [hf] at hok
    cases hok
  · refine sendError_errorKeeps errForbidden (by decide) hsteady ?_
    intro n b hok hvalid
    rw [hf] at hok
    cases hok
    exact absurd hvalid hname
  · have hbody : body.length < 2 ^ 64 := by
      have hle := uploadFields_body_length hf
      have hlt := payloadLen.toNat_lt
      omega
    refine wp_idle (idle_acquire rfl) ?_
    refine Program.wp_mono (uploadLocked_errorKeeps (l := l.popClock) _ hbody hsteady)
      fun _ s hs => hs.trans ⟨fun hharmless n b hok _ => ?_, fun h => h name body hf hname⟩
    rw [hf] at hok
    cases hok
    exact hharmless

end Upload

def sampleHost : Host where
  root := asciiBytes "storage"
  umask := 0o022
  permits _ _ := true

def sampleFile : Bytes → Node := fun name =>
  if name = [0x61] then { current := some ⟨[7, 8, 9], 0o644⟩ } else {}

/-- A disk that takes one byte of a two byte upload. -/
def shortWrite : Local := { outcomes := { writes := [.short 1] } }

def sampleUpload : Prog Unit :=
  handleUploadTimed sampleHost.root 5 (uploadPayload [0x61] [1, 2])
    (UInt32.ofNat (uploadPayload [0x61] [1, 2]).length) ⟨0, 0⟩

theorem shortWrite_steady : Steady shortWrite := ⟨nofun, nofun⟩

theorem upload_error_keeps_iff_shortWrite :
    sampleUpload.wp (semantics sampleHost).handle
      (fun _ s => ErrorKeeps sampleFile shortWrite s.1 s.2 ↔
        HarmlessPayload sampleHost sampleFile shortWrite (uploadPayload [0x61] [1, 2]))
      (sampleFile, shortWrite) :=
  upload_error_keeps_iff sampleHost 5 _ _ ⟨0, 0⟩ sampleFile shortWrite (by decide)
    shortWrite_steady

theorem sampleUpload_run :
    (sampleUpload.run (semantics sampleHost).handle (sampleFile, shortWrite)).map
      (fun q => (content q.2.1 [0x61], responseOpcode shortWrite q.2.2)) =
      some (some [1], some opRespErr) := by
  decide

/-- An error response may come with the old content gone. -/
theorem upload_error_loses_content :
    ¬ ∀ (host : Host) (clientFd : ℕ) (payload : Bytes) (payloadLen : UInt32)
      (netStart : Timespec) (σ : Bytes → Node) (l : Local),
      payloadLen.toNat = payload.length → Steady l →
      (handleUploadTimed host.root clientFd payload payloadLen netStart).wp
        (semantics host).handle (fun _ s => ErrorKeeps σ l s.1 s.2) (σ, l) := by
  intro h
  obtain ⟨_, s, hrun, hkeeps⟩ := h sampleHost 5 (uploadPayload [0x61] [1, 2])
    (UInt32.ofNat (uploadPayload [0x61] [1, 2]).length) ⟨0, 0⟩ sampleFile shortWrite (by decide)
    shortWrite_steady
  have heval := sampleUpload_run
  unfold sampleUpload at heval
  rw [hrun] at heval
  obtain ⟨hcontent, hopcode⟩ : content s.1 [0x61] = some [1] ∧
      responseOpcode shortWrite s.2 = some opRespErr := by
    simpa using heval
  have hkept := hkeeps hopcode [0x61]
  rw [hcontent] at hkept
  exact absurd hkept (by decide)

end NervFS.FailedUploads
