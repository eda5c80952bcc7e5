import NervFS.Requests
import NervFS.ThreadPool

/-!
How a job treats its descriptors. It reads and writes its client until it closes it,
once and at the end; it has one file or directory open at a time, which it uses and
closes under the number it was opened with; and it runs one request at most.
-/
namespace NervFS.JobDescriptors

open Programs Calls Protocol FileOps Handlers Requests ThreadPool

/-- What a job holds: its client, its request once dispatched, and the number of its
open file. -/
structure Held where
  client : Bool
  dispatched : Bool
  file : Option ℕ

/-- A request is being served, with no file or with a file open. -/
def served : Held := ⟨true, true, none⟩
def holding (n : ℕ) : Held := ⟨true, true, some n⟩

def descriptors (clientFd : ℕ) : Discipline Call Reply Held where
  admits c e :=
    match e with
    | .sockRead fd _ | .sockWrite fd _ | .sockClose fd => c.client = true ∧ fd = clientFd
    | .openWrite _ | .openRead _ | .opendir => c.file = none
    | .fstat fd | .mmap fd _ | .setlkw fd _ | .unlck fd | .write fd _ | .fsync fd
    | .close fd => c.file = some fd.num
    | .closedir dir => c.file = some dir.num
    | .dispatch _ => c.dispatched = false
    | _ => True
  replies _ _ := True
  next c e r :=
    match e, r with
    | .sockClose _, _ => { c with client := false }
    | .openWrite _, some fd => { c with file := some fd.num }
    | .openRead _, some fd => { c with file := some fd.num }
    | .opendir, some (dir, _) => { c with file := some dir.num }
    | .close _, _ => { c with file := none }
    | .closedir _, _ => { c with file := none }
    | .dispatch _, _ => { c with dispatched := true }
    | _, _ => c

/-- From the context `c` on, the part of a handler ends with its file closed. -/
abbrev Serves {α : Type} (clientFd : ℕ) (c : Held) (p : Prog α) : Prop :=
  Abides (descriptors clientFd) (fun c _ => c = served) c p

section Handlers
variable {fd n : ℕ} {c : Held} {α β : Type}

theorem Serves.bind {p : Prog α} {f : α → Prog β} (hp : Serves fd c p)
    (hf : ∀ a, Serves fd served (f a)) : Serves fd c (p >>= f) :=
  Abides.bind (hp.mono fun _ a hc => by
    subst hc
    exact hf a)

/-- One call, and the rest from the context it leads to. -/
theorem Serves.call {e : Call} {f : Reply e → Prog α}
    (hadm : (descriptors fd).admits c e) (hf : ∀ r, Serves fd ((descriptors fd).next c e r) (f r)) :
    Serves fd c (invoke e >>= f) :=
  ⟨hadm, fun r _ => hf r⟩

theorem Serves.all_bind {P : Call → Prop} {p : Prog α} {f : α → Prog β}
    (hc : c.client = true) (hp : p.All P) (hP : ∀ e, P e → SendsError fd e ∨ ∃ map off len,
      e = .sockWrite fd (.mapped map off len)) (hf : ∀ a, Serves fd c (f a)) :
    Serves fd c (p >>= f) := by
  refine Abides.bind (Abides.of_all hp ?_ ?_ hf)
  · intro e he
    rcases hP e he with (⟨bytes, rfl⟩ | ⟨size, rfl⟩) | ⟨map, off, len, rfl⟩
    · exact ⟨hc, rfl⟩
    · trivial
    · exact ⟨hc, rfl⟩
  · intro e r he
    rcases hP e he with (⟨bytes, rfl⟩ | ⟨size, rfl⟩) | ⟨map, off, len, rfl⟩ <;> rfl

theorem sendError_serves (errCode : UInt16) {msg : Bytes} (hmsg : msg.length < 65536) :
    Serves fd served (sendError fd errCode msg) := by
  rw [← Program.bind_unit (sendError fd errCode msg)]
  exact Serves.all_bind rfl (sendError_all fd errCode msg hmsg) (fun _ => Or.inl) fun _ => rfl

theorem sendMessage_serves (opcode : UInt16) (payload : Option Bytes) (payloadLen : UInt32)
    (us : UInt64) (h : ∀ buf ∈ payload, payloadLen.toNat ≤ buf.length) :
    Serves fd served (sendMessage fd opcode payload payloadLen us) := by
  rw [← Program.bind_unit (sendMessage fd opcode payload payloadLen us)]
  exact Serves.all_bind rfl (sendMessage_all fd opcode payload payloadLen us h)
    (fun _ he => Or.inl (Or.inl he)) fun _ => rfl

theorem sendOk_serves (us : UInt64) : Serves fd served (sendOk fd us) :=
  sendMessage_serves _ _ _ _ nofun

theorem uploadLocked_serves (path name body : Bytes) (fileSize networkUs : UInt64) :
    Serves fd served (uploadLocked fd path name body fileSize networkUs) := by
  simp only [uploadLocked, Program.pure_eq, Program.bind_unit]
  refine Serves.call trivial fun writeStart => Serves.call rfl fun opened => ?_
  cases opened with
  | none => exact Serves.call trivial fun _ => sendError_serves _ (by decide)
  | some file =>
    refine Serves.call rfl fun locked => ?_
    cases locked with
    | false =>
      exact Serves.call rfl fun _ => Serves.call trivial fun _ => sendError_serves _ (by decide)
    | true =>
      refine Serves.call rfl fun written => Serves.call trivial fun writeEnd => ?_
      change Serves fd (holding file.num) (if _ then _ else _)
      split
      · exact Serves.call rfl fun _ => Serves.call rfl fun _ => Serves.call trivial fun _ =>
          sendError_serves _ (by decide)
      · refine Serves.call rfl fun _ => Serves.call trivial fun syncEnd => ?_
        refine Serves.call rfl fun _ => Serves.call rfl fun _ => Serves.call trivial fun _ => ?_
        refine sendMessage_serves _ _ _ _ ?_
        rintro buf ⟨⟩
        simp [writeU64]

theorem closeMmap_serves (map : Option Mapping) (size : ℕ) (file : Fd) :
    Serves fd (holding file.num) (fileopsCloseMmap map size file) := by
  unfold fileopsCloseMmap
  cases map with
  | none => exact ⟨rfl, fun _ _ => rfl⟩
  | some m =>
    dsimp only
    split
    · exact Serves.call trivial fun _ => ⟨rfl, fun _ _ => rfl⟩
    · exact ⟨rfl, fun _ _ => rfl⟩

theorem downloadBody_serves (name : Bytes) (map : Option Mapping) (size : ℕ) (file : Fd)
    (us : UInt64) : Serves fd (holding file.num) (downloadBody fd name map size file us) := by
  have hclose : Serves fd (holding file.num) (fileopsUnlockFd file >>= fun _ =>
      fileopsCloseMmap map size file >>= fun _ => fileopsLockReleaseRead name) :=
    Serves.call rfl fun _ => (closeMmap_serves map size file).bind fun _ =>
      ⟨trivial, fun _ _ => rfl⟩
  have hmemory : ∀ e, SendsMemory fd e → SendsError fd e ∨ ∃ map off len,
      e = .sockWrite fd (.mapped map off len) := fun _ he => Or.inl (Or.inl he)
  unfold downloadBody
  refine Serves.call rfl fun _ => ?_
  refine Serves.all_bind rfl (sendFull_memory_all fd _) hmemory fun _ => ?_
  refine Serves.all_bind rfl (sendFull_memory_all fd _) hmemory fun _ => ?_
  cases map with
  | none => exact hclose
  | some m =>
    dsimp only
    split
    · exact Serves.all_bind rfl (sendFull_all fd _ fun i => ⟨m, 0 + i, size - i, rfl⟩)
        (fun _ he => Or.inr he) fun _ => hclose
    · exact hclose

theorem downloadLocked_serves (path name : Bytes) :
    Serves fd served (downloadLocked fd path name) := by
  have hfail : ∀ (errCode : UInt16) (msg : Bytes), msg.length < 65536 →
      Serves fd served (clockGettime >>= fun _ => fileopsLockReleaseRead name >>= fun _ =>
        sendError fd errCode msg) := fun errCode msg hmsg =>
    Serves.call trivial fun _ => Serves.call trivial fun _ => sendError_serves errCode hmsg
  unfold downloadLocked fileopsOpenForMmapRead
  refine Serves.call trivial fun start => Serves.call rfl fun opened => ?_
  cases opened with
  | none => exact hfail _ msgNotFound (by decide)
  | some file =>
    refine Serves.call rfl fun size => ?_
    cases size with
    | none => exact Serves.call rfl fun _ => hfail _ msgNotFound (by decide)
    | some size =>
      change Serves fd (holding file.num) ((if size = 0 then _ else _) >>= _)
      split
      · exact Serves.call trivial fun _ => downloadBody_serves ..
      · refine Serves.call rfl fun map => ?_
        cases map with
        | none => exact Serves.call rfl fun _ => hfail _ msgMapFailed (by decide)
        | some map => exact Serves.call trivial fun _ => downloadBody_serves ..

theorem listLoop_serves (root : Bytes) (dir : Dir) (names : List Bytes) (capacity : ℕ)
    (entries : List Dirent) :
    Serves fd (holding dir.num) (listLoop root dir names capacity entries) := by
  induction names generalizing capacity entries with
  | nil => exact ⟨rfl, fun _ _ => rfl⟩
  | cons dName names ih =>
    unfold listLoop
    split
    · exact ih capacity entries
    · dsimp only
      split
      · exact ih capacity entries
      · refine Serves.call trivial fun st => ?_
        cases st with
        | none => exact ih capacity entries
        | some st =>
          change Serves fd (holding dir.num) (if _ then _ else _)
          split
          · exact ih capacity entries
          · split
            · refine Serves.call trivial fun got => ?_
              cases got with
              | true => exact ih _ _
              | false => exact ⟨rfl, fun _ _ => rfl⟩
            · exact ih _ _

theorem listDir_serves (root : Bytes) : Serves fd served (fileopsListDir root) := by
  unfold fileopsListDir
  refine Serves.call rfl fun opened => ?_
  cases opened with
  | none => rfl
  | some stream =>
    obtain ⟨dir, names⟩ := stream
    refine Serves.call trivial fun got => ?_
    cases got with
    | true => exact listLoop_serves root dir names 16 []
    | false => exact ⟨rfl, fun _ _ => rfl⟩

/-- A write past the end of the list payload is undefined, all else is a copy. -/
theorem store_serves (size : UInt32) (out data : Bytes) {f : Bytes → Prog α}
    (hf : ∀ out, Serves fd c (f out)) : Serves fd c (store size out data >>= f) := by
  unfold store
  split
  · exact hf _
  · trivial

theorem encodeEntries_serves (size : UInt32) (entries : List Dirent) (out : Bytes) :
    Serves fd served (encodeEntries size entries out) := by
  induction entries generalizing out with
  | nil => rfl
  | cons e es ih =>
    unfold encodeEntries
    exact store_serves _ _ _ fun _ => store_serves _ _ _ fun _ => store_serves _ _ _ fun _ =>
      store_serves _ _ _ fun _ => ih _

theorem handleList_serves (root : Bytes) : Serves fd served (handleList root fd) := by
  unfold handleList
  refine Serves.call trivial fun start => (listDir_serves root).bind fun listed => ?_
  refine Serves.call trivial fun finish => ?_
  cases listed with
  | none => exact sendError_serves _ (by decide)
  | some entries =>
    refine Serves.call trivial fun got => ?_
    cases got with
    | false => exact (sendError_serves _ (by decide)).bind fun _ => rfl
    | true =>
      refine store_serves _ _ _ fun out => (encodeEntries_serves _ entries out).bind fun buf => ?_
      unfold sendMessage
      refine Serves.all_bind rfl (sendFull_memory_all fd _) (fun _ he => Or.inl (Or.inl he))
        fun _ => ?_
      dsimp only
      split
      · unfold load
        split
        · change Serves fd served (sendFull fd (.memory _) >>= _)
          exact Serves.all_bind rfl (sendFull_memory_all fd _) (fun _ he => Or.inl (Or.inl he))
            fun _ => rfl
        · trivial
      · rfl

theorem namedOf_serves {γ : Type} {root : Bytes} {fields : Except Bytes (Bytes × γ)}
    {act : Bytes → Bytes → γ → Prog Unit}
    (hmsg : ∀ msg, fields = .error msg → msg.length < 65536)
    (hact : ∀ path name rest, Serves fd served (act path name rest)) :
    Serves fd served (namedOf root fd fields act) := by
  unfold namedOf
  split
  · exact sendError_serves _ (hmsg _ rfl)
  · split
    · exact sendError_serves _ (by decide)
    · exact hact _ _ _

theorem deleteAct_serves (path name : Bytes) : Serves fd served (deleteAct fd path name) := by
  unfold deleteAct
  refine Serves.call trivial fun _ => Serves.call trivial fun start => ?_
  refine Serves.call trivial fun deleted => Serves.call trivial fun finish => ?_
  refine Serves.call trivial fun _ => ?_
  cases deleted with
  | false => exact (sendError_serves _ (by decide)).bind fun _ => rfl
  | true => exact sendOk_serves _

theorem chmodAct_serves (path name : Bytes) (mode : UInt32) :
    Serves fd served (chmodAct fd path name mode) := by
  unfold chmodAct
  refine Serves.call trivial fun _ => Serves.call trivial fun start => ?_
  refine Serves.call trivial fun changed => Serves.call trivial fun finish => ?_
  refine Serves.call trivial fun _ => ?_
  cases changed with
  | false => exact (sendError_serves _ (by decide)).bind fun _ => rfl
  | true => exact sendOk_serves _

theorem dispatchRequestTimed_serves (root : Bytes) (header : Header) (payload : Bytes)
    (netStart : Timespec) (hlen : header.payloadLen.toNat = payload.length) :
    Serves fd ⟨true, false, none⟩ (dispatchRequestTimed root fd header payload netStart) := by
  unfold dispatchRequestTimed
  refine Serves.call rfl fun _ => ?_
  change Serves fd served _
  split
  · rw [handleUploadTimed_eq _ _ _ _ _ hlen]
    exact Serves.call trivial fun _ => namedOf_serves (fun _ => uploadFields_error_length)
      fun path name body => Serves.call trivial fun _ => uploadLocked_serves ..
  split
  · rw [handleDownload_eq _ _ _ _ hlen]
    exact namedOf_serves (fun _ => nameField_error_length (by decide) (by decide))
      fun path name _ => Serves.call trivial fun _ => downloadLocked_serves path name
  split
  · exact handleList_serves root
  split
  · rw [handleDelete_eq _ _ _ _ hlen]
    exact namedOf_serves (fun _ => nameField_error_length (by decide) (by decide))
      fun path name _ => deleteAct_serves path name
  split
  · rw [handleChmod_eq _ _ _ _ hlen]
    exact namedOf_serves (fun _ => chmodFields_error_length)
      fun path name mode => chmodAct_serves path name mode
  · exact sendError_serves _ (by decide)

/-- The end of a job: its client is closed, and no file is left open. -/
def Ended (c : Held) (_ : Unit) : Prop := c.client = false ∧ c.file = none

/-- A receive only reads from the client, and fills at most its buffer. -/
theorem recvLoop_abides (len rounds : ℕ) (got : Bytes) (hc : c.client = true)
    (hgot : got.length ≤ len) :
    Abides (descriptors fd) (fun c' r => c' = c ∧ ∀ bytes ∈ r, bytes.length ≤ len) c
      (recvLoop fd len rounds got) := by
  induction rounds generalizing got with
  | zero => exact ⟨rfl, fun _ hr => Option.some.inj hr ▸ hgot⟩
  | succ rounds ih =>
    unfold recvLoop
    split
    · exact ⟨rfl, fun _ hr => Option.some.inj hr ▸ hgot⟩
    · refine ⟨⟨hc, rfl⟩, fun r _ => ?_⟩
      cases r with
      | none => exact ⟨rfl, nofun⟩
      | some chunk =>
        change Abides _ _ c (if chunk.val = [] then _ else _)
        split
        · exact ⟨rfl, fun _ hr => Option.some.inj hr ▸ hgot⟩
        · refine ih _ ?_
          have hchunk := chunk.property
          rw [List.length_append]
          omega

theorem processJob_abides (root : Bytes) (job : Job) :
    Abides (descriptors job.clientFd) Ended ⟨true, false, none⟩ (processJob root job) := by
  have hclose : ∀ dispatched, Abides (descriptors job.clientFd) Ended ⟨true, dispatched, none⟩
      (sockClose job.clientFd) := fun dispatched => ⟨⟨rfl, rfl⟩, fun _ _ => ⟨rfl, rfl⟩⟩
  have hserve : ∀ netStart payload, job.header.payloadLen.toNat = payload.length →
      Abides (descriptors job.clientFd) Ended ⟨true, false, none⟩
        (dispatchRequestTimed root job.clientFd job.header payload netStart >>= fun _ =>
          sockClose job.clientFd) := fun netStart payload hlen =>
    Abides.bind ((dispatchRequestTimed_serves root job.header payload netStart hlen).mono
      fun c _ hc => by
        subst hc
        exact hclose true)
  unfold processJob
  refine ⟨trivial, fun netStart _ => ?_⟩
  change Abides (descriptors job.clientFd) Ended ⟨true, false, none⟩ (if _ then _ else _)
  split
  · refine ⟨trivial, fun got _ => ?_⟩
    cases got with
    | false => exact hclose false
    | true =>
      change Abides (descriptors job.clientFd) Ended ⟨true, false, none⟩
        (recvFull job.clientFd job.header.payloadLen.toNat >>= _)
      refine Abides.bind ((recvLoop_abides _ _ [] rfl (Nat.zero_le _)).mono ?_)
      rintro c r ⟨rfl, hr⟩
      cases r with
      | none => exact hclose false
      | some got =>
        dsimp only
        split
        · exact hclose false
        · next hfull => exact hserve netStart got (le_antisymm (not_lt.mp hfull) (hr got rfl))
  · next hzero =>
    refine hserve netStart [] ?_
    rw [UInt32.lt_iff_toNat_lt] at hzero
    exact Nat.eq_zero_of_not_pos hzero

end Handlers

end NervFS.JobDescriptors
