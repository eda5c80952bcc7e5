import NervFS.Kernel
import NervFS.Requests

/-!
The four handlers that name a file are sections of the keyed store: each acquires the
lock of its name, touches that file only, writes to it only under the writer lock,
and releases the lock on every exit before or while it answers.
-/
namespace NervFS.Sections

open Programs KeyedStore KeyedStore.Semantics Calls Protocol FileOps Handlers Requests Kernel

variable {host : Host} {clientFd : ℕ} {name : Bytes}

theorem sendsError_own {e : Call} (h : SendsError clientFd e) : role host e = .own := by
  rcases h with ⟨bytes, rfl⟩ | ⟨size, rfl⟩ <;> rfl

theorem sendError_own (host : Host) (clientFd : ℕ) (errCode : UInt16) (msg : Bytes)
    (hmsg : msg.length < 65536) :
    (sendError clientFd errCode msg).All fun e => (semantics host).role e = .own :=
  (sendError_all clientFd errCode msg hmsg).mono fun _ => sendsError_own

theorem sendMessage_own (host : Host) (clientFd : ℕ) (opcode : UInt16) (payload : Option Bytes)
    (payloadLen : UInt32) (elapsedUs : UInt64)
    (h : ∀ buf ∈ payload, payloadLen.toNat ≤ buf.length) :
    (sendMessage clientFd opcode payload payloadLen elapsedUs).All
      fun e => (semantics host).role e = .own :=
  (sendMessage_all clientFd opcode payload payloadLen elapsedUs h).mono
    fun _ he => sendsError_own (Or.inl he)

theorem sendError_sectioned {c : Phase Bytes} (hc : ∀ key m, c ≠ .inside key m)
    (errCode : UInt16) (msg : Bytes) (hmsg : msg.length < 65536) :
    (semantics host).Sectioned c (sendError clientFd errCode msg) :=
  Sectioned.of_own (sendError_own host clientFd errCode msg hmsg) hc

theorem before_ne (key : Bytes) (m : Mode) : Phase.before ≠ .inside key m := nofun

theorem after_ne (key : Bytes) (m : Mode) : Phase.after ≠ .inside key m := nofun

/-- A path below the root is an access to the entry it was made from. -/
theorem role_joinPath (host : Host) (name : Bytes) (m : Mode) :
    roleOfPath host (joinPath host.root name) m = .access name m := by
  simp only [roleOfPath, resolve_joinPath]

theorem name_of_opened {fd : Fd} (h : resolve host.root (joinPath host.root name) =
    some fd.ino.name) : fd.ino.name = name := by
  rw [resolve_joinPath] at h
  exact (Option.some.inj h).symm

theorem release_then {kind : LockKind} {f : Unit → Prog Unit}
    (hf : (semantics host).Sectioned .after (f ())) :
    (semantics host).Sectioned (.inside name (modeOf kind))
      (invoke (.lockRelease kind name) >>= f) :=
  Sectioned.release rfl fun _ => hf

theorem uploadLocked_sectioned (body : Bytes) (fileSize networkUs : UInt64) :
    (semantics host).Sectioned (.inside name .exclusive)
      (uploadLocked clientFd (joinPath host.root name) name body fileSize networkUs) := by
  simp only [uploadLocked, Program.pure_eq, Program.bind_unit]
  refine Sectioned.own rfl fun writeStart _ => ?_
  refine Sectioned.access (role_joinPath host name .exclusive) (fun _ => rfl) fun r hr => ?_
  cases r with
  | none => exact release_then (sendError_sectioned after_ne _ msgOpenFailed (by decide))
  | some fd =>
    have hfd : fd.ino.name = name := name_of_opened (hr fd rfl)
    refine Sectioned.own rfl fun locked _ => ?_
    cases locked with
    | false =>
      refine Sectioned.own rfl fun _ _ => ?_
      exact release_then (sendError_sectioned after_ne _ msgLockFailed (by decide))
    | true =>
      refine Sectioned.access (congrArg (Role.access · .exclusive) hfd) (fun _ => rfl)
        fun written _ => ?_
      refine Sectioned.own rfl fun writeEnd _ => ?_
      change (semantics host).Sectioned _ (if _ then _ else _)
      split
      · refine Sectioned.own rfl fun _ _ => ?_
        refine Sectioned.own rfl fun _ _ => ?_
        exact release_then (sendError_sectioned after_ne _ msgWriteFailed (by decide))
      · refine Sectioned.own rfl fun _ _ => ?_
        refine Sectioned.own rfl fun syncEnd _ => ?_
        refine Sectioned.own rfl fun _ _ => ?_
        refine Sectioned.own rfl fun _ _ => ?_
        refine release_then (Sectioned.of_own (sendMessage_own host _ _ _ _ _ ?_) after_ne)
        rintro buf ⟨⟩
        simp [writeU64]

theorem sendFull_memory_own (host : Host) (clientFd : ℕ) (bytes : Bytes) :
    (sendFull clientFd (.memory bytes)).All fun e => (semantics host).role e = .own :=
  (sendFull_memory_all clientFd bytes).mono fun _ he => sendsError_own (Or.inl he)

theorem sendFull_mapped_access (host : Host) (clientFd : ℕ) (map : Mapping) (off len : ℕ) :
    (sendFull clientFd (.mapped map off len)).All
      fun e => (semantics host).role e = .access map.ino.name .shared :=
  sendFull_all clientFd _ fun _ => rfl

theorem closeMmap_own (host : Host) (map : Option Mapping) (size : ℕ) (fd : Fd) :
    (fileopsCloseMmap map size fd).All fun e => (semantics host).role e = .own := by
  unfold fileopsCloseMmap
  cases map with
  | none => exact ⟨rfl, fun _ => trivial⟩
  | some m =>
    dsimp only
    split
    · exact ⟨rfl, fun _ => ⟨rfl, fun _ => trivial⟩⟩
    · exact ⟨rfl, fun _ => trivial⟩

theorem downloadBody_sectioned (map : Option Mapping) (size : ℕ) (fd : Fd) (elapsedUs : UInt64)
    (hmap : ∀ m ∈ map, m.ino.name = name) :
    (semantics host).Sectioned (.inside name .shared)
      (downloadBody clientFd name map size fd elapsedUs) := by
  have hclose : (semantics host).Sectioned (.inside name .shared)
      (fileopsUnlockFd fd >>= fun _ => fileopsCloseMmap map size fd >>= fun _ =>
        fileopsLockReleaseRead name) := by
    refine Sectioned.own rfl fun _ _ => ?_
    refine Sectioned.own_bind (closeMmap_own host map size fd) fun _ => ?_
    exact release_then after_ne
  unfold downloadBody
  refine Sectioned.own rfl fun _ _ => ?_
  refine Sectioned.own_bind (sendFull_memory_own host clientFd _) fun _ => ?_
  refine Sectioned.own_bind (sendFull_memory_own host clientFd _) fun _ => ?_
  cases map with
  | none => exact hclose
  | some m =>
    dsimp only
    split
    · have hsend := sendFull_mapped_access host clientFd m 0 size
      rw [hmap m rfl] at hsend
      exact Sectioned.shared_bind hsend fun _ => hclose
    · exact hclose

theorem downloadLocked_sectioned :
    (semantics host).Sectioned (.inside name .shared)
      (downloadLocked clientFd (joinPath host.root name) name) := by
  have hnotFound : (semantics host).Sectioned (.inside name .shared)
      (clockGettime >>= fun _ => fileopsLockReleaseRead name >>= fun _ =>
        sendError clientFd errNotFound msgNotFound) :=
    Sectioned.own rfl fun _ _ =>
      release_then (sendError_sectioned after_ne _ msgNotFound (by decide))
  unfold downloadLocked fileopsOpenForMmapRead
  refine Sectioned.own rfl fun start _ => ?_
  refine Sectioned.access (role_joinPath host name .shared) (fun h => nomatch h) fun r hr => ?_
  cases r with
  | none => exact hnotFound
  | some fd =>
    have hfd : fd.ino.name = name := name_of_opened (hr fd rfl)
    refine Sectioned.access (congrArg (Role.access · .shared) hfd) (fun h => nomatch h)
      fun size _ => ?_
    cases size with
    | none => exact Sectioned.own rfl fun _ _ => hnotFound
    | some size =>
      change (semantics host).Sectioned _ ((if size = 0 then _ else _) >>= _)
      split
      · exact Sectioned.own rfl fun _ _ => downloadBody_sectioned _ _ _ _ nofun
      · refine Sectioned.own rfl fun map hmap => ?_
        cases map with
        | none =>
          refine Sectioned.own rfl fun _ _ => ?_
          exact Sectioned.own rfl fun _ _ =>
            release_then (sendError_sectioned after_ne _ msgMapFailed (by decide))
        | some map =>
          refine Sectioned.own rfl fun _ _ => ?_
          refine downloadBody_sectioned _ _ _ _ fun m hm => ?_
          cases hm
          rw [hmap map rfl]
          exact hfd

theorem uploadAct_sectioned (hname : ValidName host.root pathMax name) (networkUs : UInt64)
    (body : Bytes) :
    (semantics host).Sectioned .before
      (uploadAct clientFd networkUs (joinPath host.root name) name body) :=
  Sectioned.acquire rfl hname.short fun _ => uploadLocked_sectioned body _ networkUs

theorem downloadAct_sectioned (hname : ValidName host.root pathMax name) :
    (semantics host).Sectioned .before
      (downloadAct clientFd (joinPath host.root name) name) :=
  Sectioned.acquire rfl hname.short fun _ => downloadLocked_sectioned

/-- The answer of the delete and the chmod handler, after the release. -/
theorem answer_sectioned (rc : Bool) (elapsedUs : UInt64) :
    (semantics host).Sectioned .after
      (if !rc then sendError clientFd errNotFound msgNotFound
        else sendOk clientFd elapsedUs) := by
  cases rc with
  | false => exact sendError_sectioned after_ne _ msgNotFound (by decide)
  | true => exact Sectioned.of_own (sendMessage_own host clientFd opRespOk none 0 _ nofun) after_ne

theorem deleteAct_sectioned (hname : ValidName host.root pathMax name) :
    (semantics host).Sectioned .before
      (deleteAct clientFd (joinPath host.root name) name) := by
  simp only [deleteAct, Program.pure_eq, Program.bind_unit]
  refine Sectioned.acquire rfl hname.short fun _ => ?_
  refine Sectioned.own rfl fun start _ => ?_
  refine Sectioned.access (role_joinPath host name .exclusive) (fun _ => rfl) fun rc _ => ?_
  exact Sectioned.own rfl fun finish _ => release_then (answer_sectioned rc _)

theorem chmodAct_sectioned (hname : ValidName host.root pathMax name) (mode : UInt32) :
    (semantics host).Sectioned .before
      (chmodAct clientFd (joinPath host.root name) name mode) := by
  simp only [chmodAct, Program.pure_eq, Program.bind_unit]
  refine Sectioned.acquire rfl hname.short fun _ => ?_
  refine Sectioned.own rfl fun start _ => ?_
  refine Sectioned.access (role_joinPath host name .exclusive) (fun _ => rfl) fun rc _ => ?_
  exact Sectioned.own rfl fun finish _ => release_then (answer_sectioned rc _)

/-- The refusals of a request that names one file are shorter than 2^16 bytes. -/
theorem namedOf_sectioned {γ : Type} {fields : Except Bytes (Bytes × γ)}
    {act : Bytes → Bytes → γ → Prog Unit}
    (hmsg : ∀ msg, fields = .error msg → msg.length < 65536)
    (hact : ∀ name rest, ValidName host.root pathMax name → (semantics host).Sectioned .before
      (act (joinPath host.root name) name rest)) :
    (semantics host).Sectioned .before (namedOf host.root clientFd fields act) := by
  unfold namedOf
  cases fields with
  | error msg => exact sendError_sectioned before_ne _ msg (hmsg msg rfl)
  | ok field =>
    obtain ⟨name, rest⟩ := field
    dsimp only
    cases hres : safeResolvePath host.root name pathMax with
    | none => exact sendError_sectioned before_ne _ msgInvalidFilename (by decide)
    | some path =>
      obtain ⟨hname, rfl⟩ := validName_of_safeResolvePath hres
      exact hact name rest hname

section Handlers
variable {payload : Bytes} {payloadLen : UInt32}

theorem handleUploadTimed_sectioned (hlen : payloadLen.toNat = payload.length)
    (netStart : Timespec) :
    (semantics host).Sectioned .before
      (handleUploadTimed host.root clientFd payload payloadLen netStart) := by
  rw [handleUploadTimed_eq _ _ _ _ _ hlen]
  exact Sectioned.own rfl fun netEnd _ => namedOf_sectioned
    (fun _ => uploadFields_error_length) fun _ _ hname => uploadAct_sectioned hname _ _

theorem handleDownload_sectioned (hlen : payloadLen.toNat = payload.length) :
    (semantics host).Sectioned .before
      (handleDownload host.root clientFd payload payloadLen) := by
  rw [handleDownload_eq _ _ _ _ hlen]
  exact namedOf_sectioned (fun _ => nameField_error_length (by decide) (by decide))
    fun _ _ => downloadAct_sectioned

theorem handleDelete_sectioned (hlen : payloadLen.toNat = payload.length) :
    (semantics host).Sectioned .before
      (handleDelete host.root clientFd payload payloadLen) := by
  rw [handleDelete_eq _ _ _ _ hlen]
  exact namedOf_sectioned (fun _ => nameField_error_length (by decide) (by decide))
    fun _ _ => deleteAct_sectioned

theorem handleChmod_sectioned (hlen : payloadLen.toNat = payload.length) :
    (semantics host).Sectioned .before
      (handleChmod host.root clientFd payload payloadLen) := by
  rw [handleChmod_eq _ _ _ _ hlen]
  exact namedOf_sectioned (fun _ => chmodFields_error_length)
    fun _ mode hname => chmodAct_sectioned hname mode

end Handlers

end NervFS.Sections
