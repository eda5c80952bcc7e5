import NervFS.Responses
import NervFS.Sections

/-!
What one request does when nobody else runs, for every outcome of its system calls:
the file it leaves and the message it answers with. The responses are specified under
a socket that accepts them; storage is specified without that condition.
-/
namespace NervFS.Alone

open Programs KeyedStore KeyedStore.Semantics Calls Protocol FileOps Handlers Requests Kernel
open Responses

/-- The mode of a file after an upload: that of the file written over, or of a new one. -/
def modeAfter (host : Host) (v : Node) : ℕ :=
  match v.current with
  | some f => host.modeWritten f.mode
  | none => host.newMode

theorem modeWritten_modeAfter (host : Host) (v : Node) :
    host.modeWritten (modeAfter host v) = modeAfter host v := by
  unfold modeAfter
  split
  · exact modeWritten_idem
  · exact modeWritten_newMode

/-- The open of an upload succeeds. -/
def Opens (host : Host) (v : Node) (l : Local) : Prop :=
  l.outcomes.opens.headD true = true ∧ ∀ f ∈ v.current, host.permits .write f.mode = true

/-- The fcntl lock of an upload is granted. -/
def Locks (l : Local) : Prop := l.outcomes.setlkws.headD true = true

instance (l : Local) : Decidable (Locks l) := inferInstanceAs (Decidable (_ = true))

/-- The count that the write of an upload returns. -/
def written (l : Local) (body : Bytes) : Option ℕ :=
  (l.outcomes.writes.headD .all).count body.length

section Calls
variable {host : Host} {v : Node} {l : Local}

theorem openWrite_refused (name : Bytes) (h : ¬ Opens host v l) :
    openWriteNode host name v l = (none, v, l.popOpen) := by
  unfold openWriteNode
  cases hok : l.outcomes.opens.headD true with
  | false => rfl
  | true =>
    cases hv : v.current with
    | none => exact absurd ⟨hok, by simp [hv]⟩ h
    | some f =>
      have hperm : ¬ host.permits .write f.mode = true := by
        intro hp
        refine h ⟨hok, ?_⟩
        rw [hv]
        rintro _ ⟨⟩
        exact hp
      simp only [Bool.not_true, Bool.false_eq_true, if_false, if_neg hperm]

theorem openWrite_opened (name : Bytes) (h : Opens host v l) :
    openWriteNode host name v l = (some ⟨l.offsets.length, ⟨name, v.gone.length⟩⟩,
      v.put ⟨[], modeAfter host v⟩, l.popOpen.addFd) := by
  obtain ⟨hok, hperm⟩ := h
  unfold openWriteNode modeAfter
  rw [hok]
  cases hv : v.current with
  | none => rfl
  | some f => simp only [Bool.not_true, Bool.false_eq_true, if_false, hperm f hv, if_true]

theorem take_count (t : Transfer) (data : Bytes) {n : ℕ} (h : t.count data.length = some n) :
    n ≤ data.length := by
  cases t with
  | all =>
    cases h
    exact le_rfl
  | short k =>
    cases h
    exact min_le_right ..
  | error => cases h

/-- A write at the start of an empty file leaves the part that was written. -/
theorem write_fresh (name body : Bytes) {num mode : ℕ} (hmode : host.modeWritten mode = mode)
    (hoff : l.offsets.getD num 0 = 0) :
    ∃ l', writeNode host ⟨num, ⟨name, v.gone.length⟩⟩ body (v.put ⟨[], mode⟩) l =
        (written l body, v.put ⟨body.take ((written l body).getD 0), mode⟩, l') ∧
      l'.outcomes = l.popWrite.outcomes ∧ l'.sent = l.sent := by
  have hfile : (v.put ⟨[], mode⟩).file v.gone.length = some ⟨[], mode⟩ := by
    simp [Node.file, Node.put]
  have hset : ∀ f, (v.put ⟨[], mode⟩).setFile v.gone.length f = v.put f := by
    simp [Node.setFile, Node.put]
  unfold writeNode written
  simp only [hfile, hset, hoff]
  cases hw : (l.outcomes.writes.headD .all).count body.length with
  | none => exact ⟨l.popWrite, rfl, rfl, rfl⟩
  | some n =>
    have hat : writeAt [] 0 (body.take n) = body.take n := by simp [writeAt]
    simp only [hat, hmode, ite_self]
    exact ⟨_, rfl, rfl, rfl⟩

end Calls

section Handlers
variable {host : Host} {fd : ℕ} {name : Bytes} {σ : Bytes → Node} {l : Local}
variable {α : Type} {R : α → (Bytes → Node) × Local → Prop}
variable {Q : Unit → (Bytes → Node) × Local → Prop}

theorem clock_wp {f : Timespec → Prog α}
    (h : ∀ t, (f t).wp (semantics host).handle R (σ, l.popClock)) :
    (clockGettime >>= f).wp (semantics host).handle R (σ, l) :=
  wp_idle (idle_own rfl) (h _)

/-- Calls that neither the file nor the state of the run notices. -/
theorem quiet_wp {e : Call} {f : Reply e → Prog α} (hr : Idle ((semantics host).role e))
    (hown : (own e l).2 = l) (h : ∀ r, (f r).wp (semantics host).handle R (σ, l)) :
    (invoke e >>= f).wp (semantics host).handle R (σ, l) := by
  refine wp_idle hr ?_
  change (f (own e l).1).wp _ R (σ, (own e l).2)
  rw [hown]
  exact h _

theorem openWrite_wp {f : Option Fd → Prog α}
    (h : (f (openWriteNode host name (σ name) l).1).wp (semantics host).handle R
      (Function.update σ name (openWriteNode host name (σ name) l).2.1,
        (openWriteNode host name (σ name) l).2.2)) :
    (openWrite (joinPath host.root name) >>= f).wp (semantics host).handle R (σ, l) := by
  refine wp_access (Sections.role_joinPath host name .exclusive) ?_
  have htouch : (semantics host).touch (.openWrite (joinPath host.root name)) (σ name) l =
      openWriteNode host name (σ name) l := by
    simp only [semantics, Kernel.touch, resolve_joinPath]
  rw [htouch]
  exact h

theorem write_wp {file : Fd} {data : Bytes} {f : Option ℕ → Prog α}
    (h : (f (writeNode host file data (σ file.ino.name) l).1).wp (semantics host).handle R
      (Function.update σ file.ino.name (writeNode host file data (σ file.ino.name) l).2.1,
        (writeNode host file data (σ file.ino.name) l).2.2)) :
    (write file data >>= f).wp (semantics host).handle R (σ, l) :=
  wp_access (M := semantics host) (k := file.ino.name) (m := .exclusive) rfl h

/-- A request that names a file is refused for its payload, or for its name, or acts. -/
theorem namedOf_wp {γ : Type} {fields : Except Bytes (Bytes × γ)}
    {act : Bytes → Bytes → γ → Prog Unit}
    (hbad : ∀ msg, fields = .error msg →
      (sendError fd errBadRequest msg).wp (semantics host).handle Q (σ, l))
    (hforbidden : ∀ name rest, fields = .ok (name, rest) → ¬ ValidName host.root pathMax name →
      (sendError fd errForbidden msgInvalidFilename).wp (semantics host).handle Q (σ, l))
    (hact : ∀ name rest, fields = .ok (name, rest) → ValidName host.root pathMax name →
      (act (joinPath host.root name) name rest).wp (semantics host).handle Q (σ, l)) :
    (namedOf host.root fd fields act).wp (semantics host).handle Q (σ, l) := by
  unfold namedOf
  cases fields with
  | error msg => exact hbad msg rfl
  | ok field =>
    obtain ⟨name, rest⟩ := field
    dsimp only
    cases hres : safeResolvePath host.root name pathMax with
    | none =>
      refine hforbidden name rest rfl fun hname => ?_
      rw [safeResolvePath_eq_some hname] at hres
      cases hres
    | some path =>
      obtain ⟨hname, rfl⟩ := validName_of_safeResolvePath hres
      exact hact name rest rfl hname

/-- `l'` comes after `l` in a run that has sent nothing in between. -/
structure Silent (l l' : Local) : Prop where
  sent : l'.sent = l.sent
  sends : l'.outcomes.sends = l.outcomes.sends
  mallocs : l'.outcomes.mallocs = l.outcomes.mallocs

theorem Silent.delivers {l l' : Local} (h : Silent l l') (hl : Delivers l) : Delivers l' := by
  unfold Delivers
  rw [h.sends]
  exact hl

theorem Silent.steady {l l' : Local} (h : Silent l l') (hl : Steady l) : Steady l' :=
  ⟨h.delivers hl.delivers, h.mallocs ▸ hl.mallocs⟩

theorem Silent.trans {l l' l'' : Local} (h : Silent l l') (k : Silent l' l'') : Silent l l'' :=
  ⟨k.sent.trans h.sent, k.sends.trans h.sends, k.mallocs.trans h.mallocs⟩

theorem silent_popClock (l : Local) : Silent l l.popClock := ⟨rfl, rfl, rfl⟩

/-- The upload after the lock is taken: refused, cut short, or complete. -/
theorem uploadLocked_wp (body : Bytes) (networkUs : UInt64) (hbody : body.length < 2 ^ 64)
    (hrefused : ¬ Opens host (σ name) l → ∀ l', Silent l l' →
      (sendError fd errInternal msgOpenFailed).wp (semantics host).handle Q (σ, l'))
    (hlock : Opens host (σ name) l → ¬ Locks l → ∀ l', Silent l l' →
      (sendError fd errInternal msgLockFailed).wp (semantics host).handle Q
        (Function.update σ name ((σ name).put ⟨[], modeAfter host (σ name)⟩), l'))
    (hcut : Opens host (σ name) l → Locks l → written l body ≠ some body.length →
      ∀ l', Silent l l' → (sendError fd errInternal msgWriteFailed).wp (semantics host).handle Q
        (Function.update σ name
          ((σ name).put ⟨body.take ((written l body).getD 0), modeAfter host (σ name)⟩), l'))
    (hdone : Opens host (σ name) l → Locks l → written l body = some body.length →
      ∀ l' writeUs syncUs us, Silent l l' →
        (sendMessage fd opRespOk (some (metricsBody networkUs writeUs syncUs)) 24 us).wp
          (semantics host).handle Q
          (Function.update σ name ((σ name).put ⟨body, modeAfter host (σ name)⟩), l')) :
    (uploadLocked fd (joinPath host.root name) name body (UInt64.ofNat body.length)
      networkUs).wp (semantics host).handle Q (σ, l) := by
  have hsize : (UInt64.ofNat body.length).toNat = body.length := UInt64.toNat_ofNat_of_lt' hbody
  simp only [uploadLocked, Program.pure_eq, Program.bind_unit, hsize]
  refine clock_wp fun writeStart => ?_
  refine openWrite_wp ?_
  by_cases hopen : Opens host (σ name) l
  · rw [openWrite_opened (l := l.popClock) name hopen]
    refine wp_idle (idle_own rfl) ?_
    change Program.wp _ (if (!l.outcomes.setlkws.headD true) = true then _ else _) _
      (_, l.popClock.popOpen.addFd.popSetlkw)
    cases hlocked : l.outcomes.setlkws.headD true with
    | false =>
      refine wp_idle (idle_own rfl) (wp_idle (idle_release rfl) ?_)
      exact hlock hopen (by simp only [Locks, hlocked]; decide) _ ⟨rfl, rfl, rfl⟩
    | true =>
      refine write_wp ?_
      have hoff : (l.popClock.popOpen.addFd.popSetlkw).offsets.getD l.offsets.length 0 = 0 := by
        change (l.offsets ++ [0]).getD l.offsets.length 0 = 0
        simp
      obtain ⟨l₁, hrun, hout, hsent⟩ :=
        write_fresh (v := σ name) name body (modeWritten_modeAfter host (σ name)) hoff
      have hwrite : writeNode host ⟨l.popClock.offsets.length, ⟨name, (σ name).gone.length⟩⟩ body
          ((σ name).put ⟨[], modeAfter host (σ name)⟩) l.popClock.popOpen.addFd.popSetlkw =
          (written l body,
            (σ name).put ⟨body.take ((written l body).getD 0), modeAfter host (σ name)⟩, l₁) := hrun
      simp only [Function.update_self, hwrite, Function.update_idem]
      have hsilent : Silent l l₁ := by
        refine ⟨hsent, ?_, ?_⟩ <;> rw [hout] <;> rfl
      refine clock_wp fun writeEnd => ?_
      by_cases hall : written l body = some body.length
      · have htake : body.take ((written l body).getD 0) = body := by
          rw [hall]
          exact List.take_length
        rw [if_neg (not_not.mpr hall), htake]
        refine wp_idle (idle_own rfl) ?_
        refine clock_wp fun syncEnd => ?_
        refine wp_idle (idle_own rfl) (wp_idle (idle_own rfl) (wp_idle (idle_release rfl) ?_))
        exact hdone hopen hlocked hall _ _ _ _ ⟨hsilent.sent, hsilent.sends, hsilent.mallocs⟩
      · rw [if_pos hall]
        refine wp_idle (idle_own rfl) (wp_idle (idle_own rfl) (wp_idle (idle_release rfl) ?_))
        exact hcut hopen hlocked hall _ ⟨hsilent.sent, hsilent.sends, hsilent.mallocs⟩
  · rw [openWrite_refused (l := l.popClock) name hopen, Function.update_eq_self]
    refine wp_idle (idle_release rfl) ?_
    exact hrefused hopen _ ⟨rfl, rfl, rfl⟩

/-- The open of a download succeeds. -/
def OpensRead (host : Host) (v : Node) (l : Local) : Prop :=
  l.outcomes.opens.headD true = true ∧ ∃ f ∈ v.current, host.permits .read f.mode = true

theorem openRead_refused (name : Bytes) {v : Node} (h : ¬ OpensRead host v l) :
    openReadNode host name v l = (none, v, l.popOpen) := by
  unfold openReadNode
  cases hv : v.current with
  | none => rfl
  | some f =>
    have hno : ¬ (l.outcomes.opens.headD true && host.permits .read f.mode) = true := by
      intro hand
      obtain ⟨hok, hperm⟩ := Bool.and_eq_true_iff.mp hand
      exact h ⟨hok, f, hv, hperm⟩
    exact if_neg hno

theorem openRead_opened (name : Bytes) {v : Node} (h : OpensRead host v l) :
    openReadNode host name v l =
      (some ⟨l.offsets.length, ⟨name, v.gone.length⟩⟩, v, l.popOpen.addFd) := by
  obtain ⟨hok, f, hv, hperm⟩ := h
  unfold openReadNode
  rw [hv]
  exact if_pos (Bool.and_eq_true_iff.mpr ⟨hok, hperm⟩)

theorem openRead_wp {f : Option Fd → Prog α}
    (h : (f (openReadNode host name (σ name) l).1).wp (semantics host).handle R
      (σ, (openReadNode host name (σ name) l).2.2)) :
    (openRead (joinPath host.root name) >>= f).wp (semantics host).handle R (σ, l) := by
  refine wp_access (Sections.role_joinPath host name .shared) ?_
  have htouch : (semantics host).touch (.openRead (joinPath host.root name)) (σ name) l =
      openReadNode host name (σ name) l := by
    simp only [semantics, Kernel.touch, resolve_joinPath]
  rw [htouch, openReadNode_node, Function.update_eq_self]
  exact h

theorem fstat_wp {file : Fd} {content : File} {f : Option ℕ → Prog α}
    (hfile : (σ file.ino.name).file file.ino.generation = some content)
    (h : (f (if l.outcomes.fstats.headD true then some content.bytes.length else none)).wp
      (semantics host).handle R (σ, l.popFstat)) :
    (fstat file >>= f).wp (semantics host).handle R (σ, l) := by
  refine wp_access (M := semantics host) (k := file.ino.name) (m := .shared) rfl ?_
  have htouch : (semantics host).touch (.fstat file) (σ file.ino.name) l =
      (if l.outcomes.fstats.headD true then some content.bytes.length else none,
        σ file.ino.name, l.popFstat) := by
    simp only [semantics, Kernel.touch, fstatNode, hfile, Option.map_some]
  rw [htouch, Function.update_eq_self]
  exact h

theorem mmap_wp {file : Fd} {size : ℕ} {f : Option Mapping → Prog α}
    (h : (f (if l.outcomes.mmaps.headD true then some ⟨file.ino, size⟩ else none)).wp
      (semantics host).handle R (σ, l.popMmap)) :
    (mmap file size >>= f).wp (semantics host).handle R (σ, l) :=
  wp_idle (idle_own rfl) h

theorem closeDownload_wp (map : Option Mapping) (size : ℕ) (file : Fd)
    (h : Q () (σ, l)) :
    (fileopsUnlockFd file >>= fun _ => fileopsCloseMmap map size file >>= fun _ =>
      fileopsLockReleaseRead name).wp (semantics host).handle Q (σ, l) := by
  refine wp_idle (idle_own rfl) ?_
  have hlast : (fileopsLockReleaseRead name).wp (semantics host).handle Q (σ, l) :=
    wp_idle (f := fun _ => Program.ret ()) (idle_release rfl) ((Program.wp_ret ..).mpr h)
  unfold fileopsCloseMmap
  cases map with
  | none => exact wp_idle (idle_own rfl) hlast
  | some m =>
    dsimp only
    split
    · exact wp_idle (idle_own rfl) (wp_idle (idle_own rfl) hlast)
    · exact wp_idle (idle_own rfl) hlast

theorem downloadBody_wp {file : Fd} {content : File} {map : Option Mapping} (us : UInt64)
    (hfile : (σ file.ino.name).file file.ino.generation = some content)
    (hmap : map = if content.bytes.length = 0 then none
      else some ⟨file.ino, content.bytes.length⟩)
    (hl : Delivers l)
    (h : ∀ l', l'.sent = l.sent ++ fileFrame us content.bytes → Q () (σ, l')) :
    (downloadBody fd name map content.bytes.length file us).wp (semantics host).handle
      Q (σ, l) := by
  have hframe : fileFrame us content.bytes = serializeHeader
      (responseHeader opRespFileData (UInt32.ofNat (8 + content.bytes.length)) us) ++
        (writeU64 (UInt64.ofNat content.bytes.length) ++ content.bytes) := by
    simp [fileFrame, frame, writeU64]
  unfold downloadBody
  refine wp_idle (idle_own rfl) ?_
  refine sendFull_wp (.memory _) hl fun l₁ hsent₁ hl₁ => ?_
  refine sendFull_wp (.memory _) hl₁ fun l₂ hsent₂ hl₂ => ?_
  have hsent : l₂.sent = l.sent ++ (serializeHeader
      (responseHeader opRespFileData (UInt32.ofNat (8 + content.bytes.length)) us) ++
        writeU64 (UInt64.ofNat content.bytes.length)) := by
    rw [hsent₂, hsent₁, List.append_assoc]
    rfl
  by_cases hzero : content.bytes.length = 0
  · rw [if_pos hzero] at hmap
    subst hmap
    have hnil : content.bytes = [] := List.eq_nil_of_length_eq_zero hzero
    refine closeDownload_wp none _ file (h l₂ ?_)
    rw [hsent, hframe, hnil, List.append_nil]
  · rw [if_neg hzero] at hmap
    subst hmap
    dsimp only
    rw [if_pos (Nat.pos_of_ne_zero hzero)]
    have hread : Readable σ (.mapped ⟨file.ino, content.bytes.length⟩ 0 content.bytes.length)
        content.bytes := by
      have := Readable.mapped (m := ⟨file.ino, content.bytes.length⟩) 0 content.bytes.length
        hfile (by omega)
      rwa [List.drop_zero, List.take_length] at this
    refine sendFull_wp hread hl₂ fun l₃ hsent₃ _ => ?_
    refine closeDownload_wp (some _) _ file (h l₃ ?_)
    rw [hsent₃, hsent, hframe, List.append_assoc, List.append_assoc]

/-- The out parameters of a successful open and map. -/
structure Mapped (σ : Bytes → Node) (name : Bytes) (content : File) (map : Option Mapping)
    (file : Fd) : Prop where
  current_eq : (σ name).current = some content
  file_eq : (σ file.ino.name).file file.ino.generation = some content
  map_eq : map = if content.bytes.length = 0 then none else some ⟨file.ino, content.bytes.length⟩

theorem openForMmapRead_wp {R : MmapRead → (Bytes → Node) × Local → Prop}
    (hmissing : ¬ OpensRead host (σ name) l ∨ l.outcomes.fstats.headD true = false →
      ∀ l', Silent l l' → R .notFound (σ, l'))
    (hunmapped : l.outcomes.mmaps.headD true = false → ∀ l', Silent l l' → R .mapFailed (σ, l'))
    (hmapped : OpensRead host (σ name) l → ∀ content map file l', Silent l l' →
      Mapped σ name content map file → R (.opened map content.bytes.length file) (σ, l')) :
    (fileopsOpenForMmapRead (joinPath host.root name)).wp (semantics host).handle R (σ, l) := by
  unfold fileopsOpenForMmapRead
  refine openRead_wp ?_
  by_cases hopen : OpensRead host (σ name) l
  · rw [openRead_opened name hopen]
    obtain ⟨-, content, hcur, -⟩ := id hopen
    have hnode : (σ name).file (σ name).gone.length = some content := by
      rw [← hcur]
      simp [Node.file]
    refine fstat_wp hnode ?_
    by_cases hfstat : l.outcomes.fstats.headD true = true
    · rw [if_pos (show l.popOpen.addFd.outcomes.fstats.headD true = true from hfstat)]
      dsimp only
      by_cases hzero : content.bytes.length = 0
      · rw [if_pos hzero]
        refine (Program.wp_ret ..).mpr ?_
        rw [← hzero]
        exact hmapped hopen content none _ _ ⟨rfl, rfl, rfl⟩ ⟨hcur, hnode, (if_pos hzero).symm⟩
      · rw [if_neg hzero]
        refine mmap_wp ?_
        by_cases hmap : l.outcomes.mmaps.headD true = true
        · rw [if_pos (show l.popOpen.addFd.popFstat.outcomes.mmaps.headD true = true from hmap)]
          refine (Program.wp_ret ..).mpr ?_
          exact hmapped hopen content _ _ _ ⟨rfl, rfl, rfl⟩ ⟨hcur, hnode, (if_neg hzero).symm⟩
        · rw [if_neg (show ¬ l.popOpen.addFd.popFstat.outcomes.mmaps.headD true = true from hmap)]
          refine wp_idle (idle_own rfl) ((Program.wp_ret ..).mpr ?_)
          exact hunmapped (Bool.eq_false_iff.mpr hmap) _ ⟨rfl, rfl, rfl⟩
    · rw [if_neg (show ¬ l.popOpen.addFd.outcomes.fstats.headD true = true from hfstat)]
      refine wp_idle (idle_own rfl) ?_
      exact (Program.wp_ret ..).mpr (hmissing (Or.inr (Bool.eq_false_iff.mpr hfstat)) _
        ⟨rfl, rfl, rfl⟩)
  · rw [openRead_refused name hopen]
    exact (Program.wp_ret ..).mpr (hmissing (Or.inl hopen) _ ⟨rfl, rfl, rfl⟩)

/-- The download after the lock is taken: no file, no mapping, or the whole file. -/
theorem downloadLocked_wp (hl : Delivers l)
    (hmissing : ¬ OpensRead host (σ name) l ∨ l.outcomes.fstats.headD true = false →
      ∀ l', Silent l l' →
        (sendError fd errNotFound msgNotFound).wp (semantics host).handle Q (σ, l'))
    (hunmapped : l.outcomes.mmaps.headD true = false → ∀ l', Silent l l' →
      (sendError fd errInternal msgMapFailed).wp (semantics host).handle Q (σ, l'))
    (hfile : OpensRead host (σ name) l → ∀ content ∈ (σ name).current, ∀ l' us,
      l'.sent = l.sent ++ fileFrame us content.bytes → Q () (σ, l')) :
    (downloadLocked fd (joinPath host.root name) name).wp (semantics host).handle Q (σ, l) := by
  unfold downloadLocked
  refine clock_wp fun start => ?_
  refine Program.wp_bind (openForMmapRead_wp (l := l.popClock) ?_ ?_ ?_)
  · intro hno l₁ h₁
    refine clock_wp fun finish => wp_idle (idle_release rfl) ?_
    exact hmissing hno _ (((silent_popClock l).trans h₁).trans (silent_popClock l₁))
  · intro hno l₁ h₁
    refine clock_wp fun finish => wp_idle (idle_release rfl) ?_
    exact hunmapped hno _ (((silent_popClock l).trans h₁).trans (silent_popClock l₁))
  · intro hopen content map file l₁ h₁ hm
    have hs := ((silent_popClock l).trans h₁).trans (silent_popClock l₁)
    refine clock_wp fun finish => ?_
    refine downloadBody_wp _ hm.file_eq hm.map_eq (hs.delivers hl) fun l' hsent => ?_
    exact hfile hopen content hm.current_eq l' _ (hs.sent ▸ hsent)

/-- The unlink of a delete succeeds. -/
def Unlinks (v : Node) (l : Local) : Prop :=
  l.outcomes.unlinks.headD true = true ∧ v.current ≠ none

/-- The chmod succeeds. -/
def Chmods (v : Node) (l : Local) : Prop :=
  l.outcomes.chmods.headD true = true ∧ v.current ≠ none

/-- The entry without its file. -/
def removed (v : Node) : Node := { gone := v.gone ++ v.current.toList, current := none }

/-- The entry with the mode of its file changed. -/
def rechmod (mode : UInt32) (v : Node) : Node :=
  { v with current := v.current.map fun f => { f with mode := mode.toNat &&& 0o7777 } }

theorem unlinkNode_done {v : Node} (h : Unlinks v l) :
    unlinkNode v l = (true, removed v, l.popUnlink) := by
  obtain ⟨hok, hcur⟩ := h
  obtain ⟨f, hf⟩ := Option.ne_none_iff_exists'.mp hcur
  unfold unlinkNode removed
  simp only [hf, Option.toList_some]
  exact if_pos hok

theorem unlinkNode_missing {v : Node} (h : ¬ Unlinks v l) :
    unlinkNode v l = (false, v, l.popUnlink) := by
  unfold unlinkNode
  cases hf : v.current with
  | none => rfl
  | some f => exact if_neg fun hok => h ⟨hok, by simp [hf]⟩

theorem chmodNode_done {v : Node} (mode : UInt32) (h : Chmods v l) :
    chmodNode mode v l = (true, rechmod mode v, l.popChmod) := by
  obtain ⟨hok, hcur⟩ := h
  obtain ⟨f, hf⟩ := Option.ne_none_iff_exists'.mp hcur
  unfold chmodNode rechmod
  simp only [hf, Option.map_some]
  exact if_pos hok

theorem chmodNode_missing {v : Node} (mode : UInt32) (h : ¬ Chmods v l) :
    chmodNode mode v l = (false, v, l.popChmod) := by
  unfold chmodNode
  cases hf : v.current with
  | none => rfl
  | some f => exact if_neg fun hok => h ⟨hok, by simp [hf]⟩

theorem deleteFile_wp {f : Bool → Prog α}
    (h : (f (unlinkNode (σ name) l).1).wp (semantics host).handle R
      (Function.update σ name (unlinkNode (σ name) l).2.1, (unlinkNode (σ name) l).2.2)) :
    (fileopsDeleteFile (joinPath host.root name) >>= f).wp (semantics host).handle R (σ, l) :=
  wp_access (Sections.role_joinPath host name .exclusive) h

theorem chmodFile_wp {mode : UInt32} {f : Bool → Prog α}
    (h : (f (chmodNode mode (σ name) l).1).wp (semantics host).handle R
      (Function.update σ name (chmodNode mode (σ name) l).2.1, (chmodNode mode (σ name) l).2.2)) :
    (fileopsChmodFile (joinPath host.root name) mode >>= f).wp (semantics host).handle R (σ, l) :=
  wp_access (Sections.role_joinPath host name .exclusive) h

theorem deleteAct_wp
    (hmissing : ¬ Unlinks (σ name) l → ∀ l', Silent l l' →
      (sendError fd errNotFound msgNotFound).wp (semantics host).handle Q (σ, l'))
    (hdone : Unlinks (σ name) l → ∀ l' us, Silent l l' →
      (sendOk fd us).wp (semantics host).handle Q
        (Function.update σ name (removed (σ name)), l')) :
    (deleteAct fd (joinPath host.root name) name).wp (semantics host).handle Q (σ, l) := by
  simp only [deleteAct, Program.pure_eq, Program.bind_unit]
  refine quiet_wp (idle_acquire rfl) rfl fun _ => clock_wp fun start => deleteFile_wp ?_
  by_cases h : Unlinks (σ name) l
  · rw [unlinkNode_done (l := l.popClock) h]
    refine clock_wp fun finish => wp_idle (idle_release rfl) ?_
    exact hdone h _ _ ⟨rfl, rfl, rfl⟩
  · rw [unlinkNode_missing (l := l.popClock) h, Function.update_eq_self]
    refine clock_wp fun finish => wp_idle (idle_release rfl) ?_
    exact hmissing h _ ⟨rfl, rfl, rfl⟩

theorem chmodAct_wp {mode : UInt32}
    (hmissing : ¬ Chmods (σ name) l → ∀ l', Silent l l' →
      (sendError fd errNotFound msgNotFound).wp (semantics host).handle Q (σ, l'))
    (hdone : Chmods (σ name) l → ∀ l' us, Silent l l' →
      (sendOk fd us).wp (semantics host).handle Q
        (Function.update σ name (rechmod mode (σ name)), l')) :
    (chmodAct fd (joinPath host.root name) name mode).wp (semantics host).handle Q (σ, l) := by
  simp only [chmodAct, Program.pure_eq, Program.bind_unit]
  refine quiet_wp (idle_acquire rfl) rfl fun _ => clock_wp fun start => chmodFile_wp ?_
  by_cases h : Chmods (σ name) l
  · rw [chmodNode_done (l := l.popClock) mode h]
    refine clock_wp fun finish => wp_idle (idle_release rfl) ?_
    exact hdone h _ _ ⟨rfl, rfl, rfl⟩
  · rw [chmodNode_missing (l := l.popClock) mode h, Function.update_eq_self]
    refine clock_wp fun finish => wp_idle (idle_release rfl) ?_
    exact hmissing h _ ⟨rfl, rfl, rfl⟩

end Handlers

end NervFS.Alone
