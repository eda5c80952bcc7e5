import NervFS.FailedUploads
import NervFS.Operations

/-!
Writes that move less than they are asked to. The loop that `fileops` has for the job stores
the whole body whatever the counts are. The upload handler writes once, so it stores the body
when the first write takes all of it and answers with an error otherwise; a body above the
limit of one call never fits.
-/
namespace NervFS.ShortWrites

open Programs KeyedStore KeyedStore.Semantics Calls Protocol FileOps Handlers Requests Operations
open Kernel Responses Alone FailedUploads

/-- The loop of `fileops_write_fd`, for a number of rounds after which it still runs
(`none`); the results are 0 (`true`) and -1. -/
def fileopsWriteFd (fd : Fd) : (rounds : ℕ) → (data : Bytes) → Prog (Option Bool)
  | 0, _ => return none
  | rounds + 1, data => do
    if data.length = 0 then
      return some true
    match ← write fd data with
    | none => return some false
    | some n => fileopsWriteFd fd rounds (data.drop n)

def fileopsWriteFile (rounds : ℕ) (path data : Bytes) : Prog (Option Bool) := do
  match ← openWrite path with
  | none => return some false
  | some fd =>
    let rc ← fileopsWriteFd fd rounds data
    close fd
    return rc

/-- The most that Linux moves in one call. -/
def maxRwCount : ℕ := 0x7ffff000

/-- Results of write calls, enough of them for `size` bytes: each moves something, at most
what one call may move. What is asked for is a bound as well, by the meaning of `short`. -/
structure Schedule (writes : List Transfer) (size : ℕ) : Prop where
  moves : ∀ t ∈ writes, ∃ n, t = .short n ∧ 0 < n ∧ n ≤ maxRwCount
  enough : size ≤ writes.length

/-- The first call moves all that it is asked to. -/
def FirstTakes (writes : List Transfer) (size : ℕ) : Prop :=
  ∀ n, writes.head? = some (.short n) → size ≤ n

theorem firstTakes_iff {l : Local} {body : Bytes} (h : Schedule l.outcomes.writes body.length) :
    written l body = some body.length ↔ FirstTakes l.outcomes.writes body.length := by
  unfold written FirstTakes
  cases hwrites : l.outcomes.writes with
  | nil =>
    apply iff_of_true rfl
    intro n hn
    cases hn
  | cons t ts =>
    obtain ⟨n, rfl, -, -⟩ := h.moves t (hwrites ▸ List.mem_cons_self)
    change some (min n body.length) = some body.length ↔ _
    constructor
    · intro hmin k hk
      cases hk
      exact min_eq_right_iff.mp (Option.some.inj hmin)
    · intro htakes
      exact congrArg some (min_eq_right (htakes n rfl))

section Loop
variable {host : Host} {name : Bytes} {σ : Bytes → Node} {l : Local} {num : ℕ}

theorem write_append (name : Bytes) {v : Node} (stored data : Bytes) {mode : ℕ} (n : ℕ)
    (hmode : host.modeWritten mode = mode) {t : Transfer} {ts : List Transfer}
    (hwrites : l.outcomes.writes = t :: ts) (ht : t.count data.length = some n)
    (hoff : l.offsets.getD num 0 = stored.length) (hnum : num < l.offsets.length) :
    ∃ l', writeNode host ⟨num, ⟨name, v.gone.length⟩⟩ data (v.put ⟨stored, mode⟩) l =
        (some n, v.put ⟨stored ++ data.take n, mode⟩, l') ∧
      l'.outcomes.writes = ts ∧ num < l'.offsets.length ∧
      l'.offsets.getD num 0 = (stored ++ data.take n).length := by
  have hn := take_count t data ht
  have hfile : (v.put ⟨stored, mode⟩).file v.gone.length = some ⟨stored, mode⟩ := by
    simp [Node.file, Node.put]
  have hset : ∀ f, (v.put ⟨stored, mode⟩).setFile v.gone.length f = v.put f := by
    simp [Node.setFile, Node.put]
  have hat : writeAt stored stored.length (data.take n) = stored ++ data.take n := by
    simp [writeAt]
  refine ⟨l.popWrite.setOffset num (stored.length + n), ?_, ?_, ?_, ?_⟩
  · unfold writeNode
    simp only [hwrites, List.headD_cons, ht, hfile, hset, hoff, hat, hmode, ite_self]
  · change l.outcomes.writes.tail = ts
    rw [hwrites, List.tail_cons]
  · change num < (l.offsets.set num _).length
    rw [List.length_set]
    exact hnum
  · change (l.offsets.set num _).getD num 0 = _
    rw [List.getD_eq_getElem?_getD, List.getElem?_set_self hnum, Option.getD_some,
      List.length_append, List.length_take, min_eq_left hn]

theorem fileopsWriteFd_wp {Q : Option Bool → (Bytes → Node) × Local → Prop} (stored data : Bytes)
    {mode : ℕ} (rounds : ℕ) (hmode : host.modeWritten mode = mode)
    (hsched : Schedule l.outcomes.writes data.length)
    (hoff : l.offsets.getD num 0 = stored.length) (hnum : num < l.offsets.length)
    (hrounds : data.length < rounds)
    (h : ∀ l', Q (some true)
      (Function.update σ name ((σ name).put ⟨stored ++ data, mode⟩), l')) :
    (fileopsWriteFd ⟨num, ⟨name, (σ name).gone.length⟩⟩ rounds data).wp (semantics host).handle Q
      (Function.update σ name ((σ name).put ⟨stored, mode⟩), l) := by
  induction rounds generalizing stored data l with
  | zero => omega
  | succ rounds ih =>
    unfold fileopsWriteFd
    split
    · next hempty =>
      rw [List.eq_nil_of_length_eq_zero hempty, List.append_nil] at h
      exact (Program.wp_ret ..).mpr (h l)
    · next hmore =>
      cases hwrites : l.outcomes.writes with
      | nil =>
        have henough := hsched.enough
        rw [hwrites, List.length_nil] at henough
        omega
      | cons t ts =>
        obtain ⟨n, ht, hpos, -⟩ := hsched.moves t (hwrites ▸ List.mem_cons_self)
        have hcount : t.count data.length = some (min n data.length) := by
          rw [ht]
          rfl
        obtain ⟨l', hrun, hts, hnum', hoff'⟩ := write_append name (v := σ name) stored data
          (min n data.length) hmode hwrites hcount hoff hnum
        apply write_wp
        simp only [Function.update_self, hrun, Function.update_idem]
        apply ih _ _ _ hoff' hnum'
        · rw [List.length_drop]
          omega
        · intro l''
          rw [List.append_assoc, List.take_append_drop]
          exact h l''
        · have henough := hsched.enough
          rw [hwrites, List.length_cons] at henough
          rw [hts]
          constructor
          · intro t' ht'
            exact hsched.moves t' (hwrites ▸ List.mem_cons_of_mem _ ht')
          · rw [List.length_drop]
            omega

theorem fileopsWriteFile_wp {body : Bytes} (rounds : ℕ) (hopen : Opens host (σ name) l)
    (hsched : Schedule l.outcomes.writes body.length) (hrounds : body.length < rounds) :
    (fileopsWriteFile rounds (joinPath host.root name) body).wp (semantics host).handle
      (fun rc s => rc = some true ∧ content s.1 name = some body) (σ, l) := by
  unfold fileopsWriteFile
  apply openWrite_wp
  rw [openWrite_opened name hopen]
  apply Program.wp_bind
  have hsched : Schedule l.popOpen.addFd.outcomes.writes body.length := hsched
  apply fileopsWriteFd_wp [] body rounds (modeWritten_modeAfter host (σ name)) hsched _ _ hrounds
  · intro l'
    apply wp_idle (idle_own rfl)
    refine (Program.wp_ret ..).mpr ⟨rfl, ?_⟩
    simp [content, Node.put]
  · change (l.offsets ++ [0]).getD l.offsets.length 0 = 0
    simp
  · change l.offsets.length < (l.offsets ++ [0]).length
    simp

end Loop

section Upload
variable {host : Host} {fd : ℕ} {name body : Bytes} {σ : Bytes → Node} {l : Local}

/-- The file is the body and the answer says so. -/
def Stored (name body : Bytes) (l : Local) (s : (Bytes → Node) × Local) : Prop :=
  content s.1 name = some body ∧ responseOpcode l s.2 = some opRespOk

theorem uploadLocked_stored (networkUs : UInt64) (hbody : body.length < 2 ^ 64) (hl : Steady l)
    (hopen : Opens host (σ name) l) (hlock : Locks l)
    (hsched : Schedule l.outcomes.writes body.length) :
    (uploadLocked fd (joinPath host.root name) name body (UInt64.ofNat body.length)
      networkUs).wp (semantics host).handle
      (fun _ s => Stored name body l s ↔ FirstTakes l.outcomes.writes body.length) (σ, l) := by
  have hfirst := firstTakes_iff hsched
  apply uploadLocked_wp body networkUs hbody
  · intro hrefused
    exact absurd hopen hrefused
  · intro _ hunlocked
    exact absurd hlock hunlocked
  · intro _ _ hcut l₁ h₁
    apply sendError_steady_wp _ _ (by decide) (h₁.steady hl)
    intro l' hsent
    apply iff_of_false
    · intro hstored
      have hopcode := hstored.2
      rw [responseOpcode_error (h₁.sent ▸ hsent)] at hopcode
      exact absurd hopcode (by decide)
    · exact fun htakes => hcut (hfirst.mpr htakes)
  · intro _ _ hdone l₁ writeUs syncUs us h₁
    apply sendMetrics_wp networkUs writeUs syncUs us (h₁.steady hl).delivers
    intro l' hsent
    apply iff_of_true _ (hfirst.mp hdone)
    refine ⟨?_, responseOpcode_frame (h₁.sent ▸ hsent)⟩
    simp [content, Node.put]

end Upload

/-- The handler stores the body and says so when the first write takes all of it, and only
then; the loop stores it always. -/
theorem upload_stores_iff (host : Host) (clientFd : ℕ) (name body : Bytes) (payloadLen : UInt32)
    (netStart : Timespec) (σ : Bytes → Node) (l : Local)
    (hname : ValidName host.root pathMax name)
    (hlen : payloadLen.toNat = (uploadPayload name body).length) (hl : Steady l)
    (hopen : Opens host (σ name) l) (hlock : Locks l)
    (hsched : Schedule l.outcomes.writes body.length) :
    (handleUploadTimed host.root clientFd (uploadPayload name body) payloadLen netStart).wp
        (semantics host).handle
        (fun _ s => Stored name body l s ↔ FirstTakes l.outcomes.writes body.length) (σ, l) ∧
      ∀ rounds, body.length < rounds →
        (fileopsWriteFile rounds (joinPath host.root name) body).wp (semantics host).handle
          (fun rc s => rc = some true ∧ content s.1 name = some body) (σ, l) := by
  have hbody : body.length < 2 ^ 64 := by
    have hlt := payloadLen.toNat_lt
    simp only [uploadPayload, List.length_append] at hlen
    omega
  have hshort : name.length < 65536 := by
    have h := hname.short
    unfold nervfsMaxNameLen at h
    omega
  have hfields : uploadFields (uploadPayload name body) = .ok (name, body) :=
    uploadFields_ok_iff.mpr ⟨hshort, hbody, rfl⟩
  constructor
  · rw [handleUploadTimed_eq _ _ _ _ _ hlen, hfields]
    apply clock_wp
    intro netEnd
    unfold namedOf
    dsimp only
    rw [safeResolvePath_eq_some hname]
    apply wp_idle (idle_acquire rfl)
    exact uploadLocked_stored (l := l.popClock) _ hbody ⟨hl.delivers, hl.mallocs⟩ hopen hlock hsched
  · intro rounds hrounds
    exact fileopsWriteFile_wp rounds hopen hsched hrounds

/-- Two bytes that go out one by one. -/
def oneByOne : Local := { outcomes := { writes := [.short 1, .short 1] } }

theorem oneByOne_schedule : Schedule oneByOne.outcomes.writes [1, 2].length := by
  constructor
  · intro t ht
    refine ⟨1, ?_, by decide, by decide⟩
    simpa [oneByOne] using ht
  · decide

theorem oneByOne_steady : Steady oneByOne := by
  constructor
  · intro o ho
    cases ho
  · intro b hb
    cases hb

theorem sampleName_valid : ValidName sampleHost.root pathMax [0x61] :=
  ⟨by decide, by decide, by decide, by decide, by decide, by decide, by decide⟩

theorem sampleFile_opens : Opens sampleHost (sampleFile [0x61]) oneByOne :=
  ⟨rfl, fun _ _ => rfl⟩

theorem upload_stores_iff_oneByOne :
    sampleUpload.wp (semantics sampleHost).handle
        (fun _ s => Stored [0x61] [1, 2] oneByOne s ↔ FirstTakes oneByOne.outcomes.writes 2)
        (sampleFile, oneByOne) ∧
      ∀ rounds, 2 < rounds →
        (fileopsWriteFile rounds (joinPath sampleHost.root [0x61]) [1, 2]).wp
          (semantics sampleHost).handle
          (fun rc s => rc = some true ∧ content s.1 [0x61] = some [1, 2])
          (sampleFile, oneByOne) :=
  upload_stores_iff sampleHost 5 [0x61] [1, 2] _ ⟨0, 0⟩ sampleFile oneByOne sampleName_valid
    (by decide) oneByOne_steady sampleFile_opens rfl oneByOne_schedule

/-- Every write moved something, and the body is not stored. -/
theorem upload_not_stored :
    ¬ ∀ (host : Host) (clientFd : ℕ) (name body : Bytes) (payloadLen : UInt32)
      (netStart : Timespec) (σ : Bytes → Node) (l : Local),
      ValidName host.root pathMax name →
      payloadLen.toNat = (uploadPayload name body).length → Steady l →
      Opens host (σ name) l → Locks l → Schedule l.outcomes.writes body.length →
      (handleUploadTimed host.root clientFd (uploadPayload name body) payloadLen netStart).wp
        (semantics host).handle (fun _ s => Stored name body l s) (σ, l) := by
  intro h
  obtain ⟨_, s, hrun, hstored⟩ := h sampleHost 5 [0x61] [1, 2]
    (UInt32.ofNat (uploadPayload [0x61] [1, 2]).length) ⟨0, 0⟩ sampleFile oneByOne
    sampleName_valid (by decide) oneByOne_steady sampleFile_opens rfl oneByOne_schedule
  have heval : (sampleUpload.run (semantics sampleHost).handle (sampleFile, oneByOne)).map
      (fun q => content q.2.1 [0x61]) = some (some [1]) := by
    decide
  unfold sampleUpload at heval
  rw [hrun] at heval
  have hcontent : content s.1 [0x61] = some [1] := by simpa using heval
  rw [hstored.1] at hcontent
  exact absurd hcontent (by decide)

end NervFS.ShortWrites
