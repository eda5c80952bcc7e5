import NervFS.FailedUploads
import NervFS.Workers

/-!
Record locks of the downloads of one process. The kernel keeps one lock for a process
and an inode, however many workers asked for it, so the unlock or the close of the
first worker that is done takes it away from those that still send.
-/
namespace NervFS.RecordLocks

open Programs KeyedStore KeyedStore.Semantics Transitions Calls Protocol FileOps Handlers
open Requests Kernel Alone FailedUploads Workers

/-- The inode that a handler has locked and not yet unlocked, after another call. -/
def lockedBy (cur : Option Ino) : Call → Option Ino
  | .setlkw fd _ => some fd.ino
  | .unlck _ => none
  | _ => cur

/-- The inode for which a handler is between its `fileops_lock_fd` and its
`fileops_unlock_fd`. -/
def between (log : List Call) : Option Ino := log.foldl lockedBy none

theorem between_snoc (log : List Call) (e : Call) :
    between (log ++ [e]) = lockedBy (between log) e := by
  simp [between]

section Program
variable {host : Host} {fd : ℕ} {name : Bytes} {cur : Option Ino}

/-- A download asks for read locks only, and closes its file outside the locked part. -/
def reading : Discipline Call Reply (Option Ino) where
  admits cur e :=
    match e with
    | .setlkw _ kind => kind = .read
    | .close _ => cur = none
    | _ => True
  replies _ _ := True
  next cur e _ := lockedBy cur e

abbrev Reads (cur : Option Ino) (p : Prog Unit) : Prop := Obeys reading (fun _ _ => True) cur p

/-- Calls that have nothing to do with record locks. -/
def Neutral (e : Call) : Prop := ∀ cur, reading.admits cur e ∧ lockedBy cur e = cur

theorem Reads.neutral_bind {α : Type} {p : Prog α} {f : α → Prog Unit} (hp : p.All Neutral)
    (hf : ∀ a, Reads cur (f a)) : Reads cur (p >>= f) :=
  Obeys.all_bind hp (fun _ he => (he cur).1) (fun _ _ he => (he cur).2) hf

theorem Reads.neutral {p : Prog Unit} (hp : p.All Neutral) : Reads cur p :=
  Obeys.of_all hp (fun _ he => (he cur).1) (fun _ _ he => (he cur).2) fun _ => trivial

theorem Reads.call {e : Call} {f : Reply e → Prog Unit} (he : reading.admits cur e)
    (hf : ∀ r, Reads (lockedBy cur e) (f r)) : Reads cur (invoke e >>= f) :=
  ⟨he, fun r _ => hf r⟩

theorem sendError_neutral (errCode : UInt16) (msg : Bytes) (hmsg : msg.length < 65536) :
    (sendError fd errCode msg).All Neutral :=
  (sendError_all fd errCode msg hmsg).mono fun e he => by
    rcases he with ⟨bytes, rfl⟩ | ⟨size, rfl⟩ <;> exact fun _ => ⟨trivial, rfl⟩

theorem sendFull_neutral (buf : Buffer) : (sendFull fd buf).All Neutral :=
  sendFull_all fd buf fun _ _ => ⟨trivial, rfl⟩

theorem closeMmap_reads (map : Option Mapping) (size : ℕ) (file : Fd) {f : Unit → Prog Unit}
    (hf : ∀ r, Reads none (f r)) : Reads none (fileopsCloseMmap map size file >>= f) := by
  unfold fileopsCloseMmap
  cases map with
  | none => exact Reads.call rfl hf
  | some m =>
    dsimp only
    split
    · exact Reads.call trivial fun _ => Reads.call rfl hf
    · exact Reads.call rfl hf

theorem downloadBody_reads (map : Option Mapping) (size : ℕ) (file : Fd) (us : UInt64) :
    Reads none (downloadBody fd name map size file us) := by
  have hclose : Reads (some file.ino) (fileopsUnlockFd file >>= fun _ =>
      fileopsCloseMmap map size file >>= fun _ => fileopsLockReleaseRead name) :=
    Reads.call trivial fun _ => closeMmap_reads map size file fun _ => ⟨trivial, fun _ _ => trivial⟩
  unfold downloadBody
  refine Reads.call rfl fun _ => ?_
  refine Reads.neutral_bind (sendFull_neutral _) fun _ => ?_
  refine Reads.neutral_bind (sendFull_neutral _) fun _ => ?_
  cases map with
  | none => exact hclose
  | some m =>
    dsimp only
    split
    · exact Reads.neutral_bind (sendFull_neutral _) fun _ => hclose
    · exact hclose

theorem downloadLocked_reads (path : Bytes) : Reads none (downloadLocked fd path name) := by
  have hfail : ∀ (errCode : UInt16) (msg : Bytes), msg.length < 65536 →
      Reads none (clockGettime >>= fun _ => fileopsLockReleaseRead name >>= fun _ =>
        sendError fd errCode msg) := fun errCode msg hmsg =>
    Reads.call trivial fun _ => Reads.call trivial fun _ =>
      Reads.neutral (sendError_neutral errCode msg hmsg)
  unfold downloadLocked fileopsOpenForMmapRead
  refine Reads.call trivial fun start => Reads.call trivial fun opened => ?_
  cases opened with
  | none => exact hfail _ msgNotFound (by decide)
  | some file =>
    refine Reads.call trivial fun size => ?_
    cases size with
    | none => exact Reads.call rfl fun _ => hfail _ msgNotFound (by decide)
    | some size =>
      change Reads none ((if size = 0 then _ else _) >>= _)
      split
      · exact Reads.call trivial fun _ => downloadBody_reads _ _ _ _
      · refine Reads.call trivial fun map => ?_
        cases map with
        | none => exact Reads.call rfl fun _ => hfail _ msgMapFailed (by decide)
        | some map => exact Reads.call trivial fun _ => downloadBody_reads _ _ _ _

theorem download_reads (r : Request) (hcomplete : r.Complete)
    (hop : r.header.opcode = opReqDownload) : Reads none (r.prog host) := by
  unfold Request.prog dispatchRequestTimed
  refine Reads.call trivial fun _ => ?_
  rw [if_neg (by rw [hop]; decide), if_pos hop, handleDownload_eq _ _ _ _ hcomplete]
  unfold namedOf
  split
  · next hf =>
    exact Reads.neutral (sendError_neutral _ _ (nameField_error_length (by decide) (by decide) hf))
  · split
    · exact Reads.neutral (sendError_neutral _ msgInvalidFilename (by decide))
    · exact Reads.call trivial fun _ => downloadLocked_reads _

end Program

section Runs
variable {P T : Type} [DecidableEq P] [DecidableEq T] [Fintype P]
variable {host : Host} {proc : T → P} {p : P} {s s' : Workers.State P T}

/-- The process has a read lock on the inode, and a write lock is refused to the others. -/
def Held (s : Workers.State P T) (p : P) (ino : Ino) : Prop :=
  s.records p ino = some .read ∧ ∀ q, q ≠ p → ∀ file l, file.ino = ino → Locks l →
    Blocked s.records q l (.setlkw file .write)

/-- The process has a read lock for every worker that is in the locked part. -/
def Covered (proc : T → P) (p : P) (s : Workers.State P T) : Prop :=
  ∀ t ino, proc t = p → between (s.service t).log = some ino → Held s p ino

omit [DecidableEq P] [DecidableEq T] in
theorem held_iff {ino : Ino} : Held s p ino ↔ s.records p ino = some .read := by
  refine ⟨And.left, fun h => ⟨h, fun q hq file l hfile hl => ⟨hl, p, hq.symm, ?_⟩⟩⟩
  rw [hfile, h]
  exact nofun

/-- A call of a worker that costs no other worker of the process its lock: no unlock and no
close while another one is in the locked part, and a lock that is granted. -/
def Spares (proc : T → P) (p : P) (s : Workers.State P T) (t : T) : Call → Prop
  | .unlck file => ∀ u, u ≠ t → proc u = p → between (s.service u).log ≠ some file.ino
  | .close file => ∀ u, u ≠ t → proc u = p → between (s.service u).log ≠ some file.ino
  | .setlkw file _ => Locks (s.service t).loc ∨ s.records p file.ino = some .read
  | _ => True

def SparesNext (proc : T → P) (p : P) (s : Workers.State P T) : Label T → Prop
  | .wake _ => True
  | .call t _ => proc t = p → ∀ e ∈ (s.service t).prog.next?, Spares proc p s t e

instance [Fintype T] (s : Workers.State P T) (t : T) (e : Call) :
    Decidable (Spares proc p s t e) :=
  match e with
  | .unlck file | .close file =>
    inferInstanceAs (Decidable (∀ u, u ≠ t → proc u = p →
      between (s.service u).log ≠ some file.ino))
  | .setlkw file _ =>
    inferInstanceAs (Decidable (Locks (s.service t).loc ∨ s.records p file.ino = some .read))
  | .clockGettime | .malloc _ | .lockAcquire _ _ | .lockRelease _ _ | .openWrite _
  | .openRead _ | .fstat _ | .mmap _ _ | .munmap _ | .write _ _ | .fsync _ | .unlink _
  | .chmod _ _ | .opendir | .closedir _ | .stat _ | .sockRead _ _ | .sockWrite _ _
  | .sockClose _ | .dispatch _ => isTrue trivial

instance [Fintype T] (s : Workers.State P T) (a : Label T) :
    Decidable (SparesNext proc p s a) :=
  match a with
  | .wake _ => isTrue trivial
  | .call t _ => inferInstanceAs (Decidable (proc t = p →
      ∀ e ∈ (s.service t).prog.next?, Spares proc p s t e))

/-- What the programs of the process still do. -/
def Disciplined (proc : T → P) (p : P) (s : Workers.State P T) : Prop :=
  ∀ t, proc t = p → Reads (between (s.service t).log) (s.service t).prog

variable {t : T} {malloc : Option ℕ} {e : Call} {k : Reply e → Prog Unit} {r : Reply e}
variable {l : Local}

theorem answers_between (ha : Answers host proc s t malloc e k r l s') (u : T) :
    between (s'.service u).log =
      if u = t then lockedBy (between (s.service t).log) e else between (s.service u).log := by
  rw [ha.service]
  by_cases hu : u = t
  · subst hu
    rw [Function.update_self, if_pos rfl, between_snoc]
  · rw [Function.update_of_ne hu, if_neg hu]

theorem Disciplined.answers (hd : Disciplined proc p s)
    (ha : Answers host proc s t malloc e k r l s') : Disciplined proc p s' := by
  intro u hu
  rw [answers_between ha u, ha.service]
  by_cases hut : u = t
  · subst hut
    rw [if_pos rfl, Function.update_self]
    have hprog := hd u hu
    rw [ha.prog] at hprog
    exact hprog.2 r trivial
  · rw [if_neg hut, Function.update_of_ne hut]
    exact hd u hu

theorem answers_records_other (ha : Answers host proc s t malloc e k r l s')
    (hp : proc t ≠ p) : s'.records p = s.records p := by
  rw [ha.records]
  unfold recordsAfter
  split <;> first | rfl | exact Function.update_of_ne (Ne.symm hp) ..

omit [Fintype P] [DecidableEq T] in
theorem recordsAfter_setlkw (records : P → Ino → Option LockKind) (p : P) (file : Fd)
    (kind : LockKind) (b : Bool) :
    recordsAfter records p (.setlkw file kind) b p =
      if b = true then Function.update (records p) file.ino (some kind) else records p := by
  cases b with
  | true => rw [if_pos rfl, recordsAfter, setRecord, Function.update_self]
  | false => rfl

theorem answers_cases (ha : Answers host proc s t malloc e k r l s')
    (hd : Disciplined proc p s) (hp : proc t = p) :
    (∃ file, e = .setlkw file .read ∧ s'.records p =
      if Locks (s.service t).loc then Function.update (s.records p) file.ino (some .read)
      else s.records p) ∨
    (∃ file, (e = .unlck file ∨ e = .close file ∧ between (s.service t).log = none) ∧
      s'.records p = Function.update (s.records p) file.ino none) ∨
    ((∀ s t, Spares proc p s t e) ∧ (∀ cur, lockedBy cur e = cur) ∧
      s'.records p = s.records p) := by
  have hprog := hd t hp
  rw [ha.prog] at hprog
  have hrec := ha.records
  have hhandled := ha.handled
  subst hp
  cases e with
  | setlkw file kind =>
    obtain rfl : kind = .read := hprog.1
    obtain ⟨rfl, -, -⟩ := of_handle_idle (idle_own rfl) hhandled
    refine Or.inl ⟨file, rfl, ?_⟩
    rw [hrec]
    exact recordsAfter_setlkw _ _ file .read ((s.service t).loc.outcomes.setlkws.headD true)
  | unlck file =>
    refine Or.inr (Or.inl ⟨file, Or.inl rfl, ?_⟩)
    rw [hrec]
    simp [recordsAfter, setRecord]
  | close file =>
    refine Or.inr (Or.inl ⟨file, Or.inr ⟨rfl, hprog.1⟩, ?_⟩)
    rw [hrec]
    simp [recordsAfter, setRecord]
  | _ => exact Or.inr (Or.inr ⟨fun _ _ => trivial, fun _ => rfl, by rw [hrec]; rfl⟩)

/-- An answered call keeps the workers covered exactly when it spares them. -/
theorem Covered.answers (hc : Covered proc p s) (hd : Disciplined proc p s)
    (ha : Answers host proc s t malloc e k r l s') (hp : proc t = p) :
    Covered proc p s' ↔ Spares proc p s t e := by
  have hbetween := answers_between ha
  unfold Covered at hc ⊢
  simp only [held_iff] at hc ⊢
  rcases answers_cases ha hd hp with ⟨file, rfl, hrec⟩ | ⟨file, he, hrec⟩ | ⟨hspares, hlog, hrec⟩
  · constructor
    · intro hcov
      have ht := hcov t file.ino hp (by rw [hbetween, if_pos rfl]; rfl)
      rw [hrec] at ht
      by_cases hl : Locks (s.service t).loc
      · exact Or.inl hl
      · rw [if_neg hl] at ht
        exact Or.inr ht
    · intro hspares u ino hu hb
      rw [hbetween] at hb
      rw [hrec]
      by_cases hut : u = t
      · rw [if_pos hut] at hb
        cases hb
        split
        · rw [Function.update_self]
        · next hl => exact hspares.resolve_left hl
      · rw [if_neg hut] at hb
        have hold := hc u ino hu hb
        split
        · by_cases hi : ino = file.ino
          · rw [hi, Function.update_self]
          · rw [Function.update_of_ne hi, hold]
        · exact hold
  · have hspares : Spares proc p s t e ↔
        ∀ u, u ≠ t → proc u = p → between (s.service u).log ≠ some file.ino := by
      rcases he with rfl | ⟨rfl, -⟩ <;> exact Iff.rfl
    rw [hspares]
    constructor
    · intro hcov u hut hu hb
      have hold := hcov u file.ino hu (by rw [hbetween, if_neg hut]; exact hb)
      rw [hrec, Function.update_self] at hold
      cases hold
    · intro hfree u ino hu hb
      rw [hbetween] at hb
      by_cases hut : u = t
      · rw [if_pos hut] at hb
        rcases he with rfl | ⟨rfl, hnone⟩
        · cases hb
        · rw [hnone] at hb
          cases hb
      · rw [if_neg hut] at hb
        have hi : ino ≠ file.ino := by
          rintro rfl
          exact hfree u hut hu hb
        rw [hrec, Function.update_of_ne hi]
        exact hc u ino hu hb
  · refine iff_of_true (fun u ino hu hb => ?_) (hspares s t)
    rw [hbetween, hlog] at hb
    rw [hrec]
    refine hc u ino hu ?_
    by_cases hut : u = t
    · rw [if_pos hut] at hb
      exact hut ▸ hb
    · rwa [if_neg hut] at hb

/-- Any step keeps the discipline, and it keeps the workers covered exactly when the call
that it makes spares them. -/
theorem Covered.step (hc : Covered proc p s) (hd : Disciplined proc p s) {a : Label T}
    (h : next host proc s a = some s') :
    Disciplined proc p s' ∧ (Covered proc p s' ↔ SparesNext proc p s a) := by
  rcases next_cases h with ⟨t, locks, rfl, -, rfl⟩ |
    ⟨t, malloc, e, k, name, m, locks, rfl, hp, hr, -, -, rfl⟩ | ⟨t, malloc, e, k, r, l, rfl, ha⟩
  · exact ⟨hd, iff_of_true hc trivial⟩
  · refine ⟨hd, iff_of_true hc fun _ e' he' => ?_⟩
    rw [hp] at he'
    cases he'
    cases e <;> trivial
  · refine ⟨hd.answers ha, ?_⟩
    have hspares : SparesNext proc p s (.call t malloc) ↔ (proc t = p → Spares proc p s t e) := by
      change (proc t = p → ∀ e' ∈ (s.service t).prog.next?, Spares proc p s t e') ↔ _
      rw [ha.prog]
      simp [Program.next?]
    rw [hspares]
    by_cases hp : proc t = p
    · rw [hc.answers hd ha hp]
      exact ⟨fun h _ => h, fun h => h hp⟩
    · refine iff_of_true (fun u ino hu hb => ?_) fun h => absurd h hp
      have hut : u ≠ t := by
        rintro rfl
        exact hp hu
      rw [answers_between ha, if_neg hut] at hb
      rw [held_iff, answers_records_other ha hp]
      exact held_iff.mp (hc u ino hu hb)

/-- While every call spares the other workers, a download that sends is covered by a read
lock of its process; the first call that does not takes the lock away. -/
theorem downloads_covered_iff (host : Host) (proc : T → P) (p : P) (request : T → Request)
    (σ₀ : Bytes → Node)
    (hok : ∀ t, proc t = p → (request t).Complete ∧ (request t).header.opcode = opReqDownload)
    {ls : List (Label T)}
    (h : Run (Where (Computes (next host proc)) fun s a _ => SparesNext proc p s a)
      (start host request σ₀) ls s) :
    Covered proc p s ∧
      ∀ a s', next host proc s a = some s' → (Covered proc p s' ↔ SparesNext proc p s a) := by
  obtain ⟨hd, hc⟩ : Disciplined proc p s ∧ Covered proc p s := by
    refine h.invariant (I := fun s => Disciplined proc p s ∧ Covered proc p s) ⟨?_, ?_⟩ ?_
    · exact fun t ht => download_reads (request t) (hok t ht).1 (hok t ht).2
    · exact fun t ino _ hb => nomatch hb
    · rintro s a s' ⟨hd, hc⟩ ⟨hnext, hspares⟩
      obtain ⟨hd', hiff⟩ := hc.step hd hnext
      exact ⟨hd', hiff.mpr hspares⟩
  exact ⟨hc, fun a s' hnext => (hc.step hd hnext).2⟩

end Runs

def sampleDownload (fast : Bool) : Request :=
  plainRequest (if fast then 5 else 6) opReqDownload (namePayload [0x61])

theorem sampleDownload_ok (fast : Bool) :
    (sampleDownload fast).Complete ∧ (sampleDownload fast).header.opcode = opReqDownload := by
  unfold Request.Complete
  cases fast <;> decide

/-- The slow one has opened the file before the fast one, and locks it afterwards. -/
def inTurn : List (Label Bool) :=
  List.replicate 6 (.call false (some 1)) ++ List.replicate 15 (.call true (some 2)) ++
    List.replicate 2 (.call false (some 1))

theorem inTurn_locks :
    ((follow (guarded (next sampleHost one) (SparesNext one ()))
      (start sampleHost sampleDownload sampleFile) inTurn).map
        fun s => between (s.service false).log) = some (some ⟨[0x61], 0⟩) := by
  decide +kernel

theorem downloads_covered_inTurn :
    ∃ s, follow (next sampleHost one) (start sampleHost sampleDownload sampleFile) inTurn =
      some s ∧ between (s.service false).log = some ⟨[0x61], 0⟩ ∧ Held s () ⟨[0x61], 0⟩ := by
  obtain ⟨s, hs, hbetween⟩ := Option.map_eq_some_iff.mp inTurn_locks
  have hrun := run_of_guarded hs
  obtain ⟨hcovered, -⟩ := downloads_covered_iff sampleHost one () sampleDownload sampleFile
    (fun t _ => sampleDownload_ok t) hrun
  exact ⟨s, follow_of_guarded hs, hbetween, hcovered false _ rfl hbetween⟩

/-- The slow one sends while the fast one unlocks. -/
def overlapping : List (Label Bool) :=
  List.replicate 8 (.call false (some 1)) ++ List.replicate 12 (.call true (some 2))

theorem overlapping_unlocks :
    ((follow (next sampleHost one) (start sampleHost sampleDownload sampleFile) overlapping).map
      fun s => (between (s.service false).log, s.records () ⟨[0x61], 0⟩)) =
      some (some ⟨[0x61], 0⟩, none) := by
  decide +kernel

/-- Two downloads at once are enough for one of them to send without a record lock. -/
theorem downloads_uncovered :
    ¬ ∀ (host : Host) (request : Bool → Request) (σ₀ : Bytes → Node) (ls : List (Label Bool))
      (s : Workers.State Unit Bool),
      (∀ t, (request t).Complete ∧ (request t).header.opcode = opReqDownload) →
      (∀ t, ∀ b ∈ (request t).outcomes.setlkws, b = true) →
      Run (Computes (next host one)) (start host request σ₀) ls s → Covered one () s := by
  intro h
  obtain ⟨s, hs, hend⟩ := Option.map_eq_some_iff.mp overlapping_unlocks
  obtain ⟨hbetween, hrecord⟩ := Prod.mk.inj hend
  have hheld := h sampleHost sampleDownload sampleFile overlapping s sampleDownload_ok
    (fun _ => nofun) (run_of_follow hs) false _ rfl hbetween
  rw [hheld.1] at hrecord
  cases hrecord

end NervFS.RecordLocks
