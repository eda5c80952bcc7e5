import NervFS.WholeFiles
import NervFS.Lib.Passing

/-!
What the storage directory holds while requests are in service, also in the middle of one.
A file has its initial content or the beginning of an upload of its name; if no lock is
refused and no write is cut short it is whole, except while an upload of the name holds the
lock and has opened the file but not written it.
-/
namespace NervFS.Contents

open Programs KeyedStore KeyedStore.Semantics Transitions Calls Protocol FileOps Handlers
open Requests Kernel Responses Alone Sections Workers Holding Serialization WholeFiles
open FailedUploads (content sampleHost sampleFile)

section Handlers
variable {N U : Bytes → Node → Prop} {host : Host} {fd : ℕ} {name : Bytes} {v : Node} {l : Local}

theorem clock_settlesIn {α : Type} {f : Timespec → Prog α}
    (h : ∀ t, (semantics host).SettlesIn N U name (f t) v l.popClock) :
    (semantics host).SettlesIn N U name (clockGettime >>= f) v l :=
  SettlesIn.own rfl (h _)

/-- The upload passes from the old file over an empty one to what it has written. -/
theorem uploadLocked_settles (body : Bytes) (networkUs : UInt64) (hbody : body.length < 2 ^ 64)
    (hv : N name v)
    (hempty : N name (v.put ⟨[], modeAfter host v⟩) ∨ U name (v.put ⟨[], modeAfter host v⟩))
    (hlock : ¬ Locks l → N name (v.put ⟨[], modeAfter host v⟩))
    (hwritten : N name (v.put ⟨body.take ((written l body).getD 0), modeAfter host v⟩)) :
    (semantics host).SettlesIn N U name (uploadLocked fd (joinPath host.root name) name body
      (UInt64.ofNat body.length) networkUs) v l := by
  have hsize : (UInt64.ofNat body.length).toNat = body.length := UInt64.toNat_ofNat_of_lt' hbody
  simp only [uploadLocked, Program.pure_eq, Program.bind_unit, hsize]
  refine clock_settlesIn fun writeStart => ?_
  have htouch : (semantics host).touch (.openWrite (joinPath host.root name)) v l.popClock =
      openWriteNode host name v l.popClock := by
    simp only [semantics, Kernel.touch, resolve_joinPath]
  by_cases hopen : Opens host v l
  · have hopened := openWrite_opened (l := l.popClock) name hopen
    refine SettlesIn.access (role_joinPath host name .exclusive) ?_ ?_
    · rw [htouch, hopened]
      exact hempty
    rw [htouch, hopened]
    refine SettlesIn.own rfl ?_
    change SettlesIn _ N U name (if (!l.outcomes.setlkws.headD true) = true then _ else _)
      (v.put ⟨[], modeAfter host v⟩) l.popClock.popOpen.addFd.popSetlkw
    cases hlocked : l.outcomes.setlkws.headD true with
    | false =>
      refine SettlesIn.own rfl (SettlesIn.release rfl (hlock ?_))
      simp only [Locks, hlocked]
      decide
    | true =>
      have hoff : (l.popClock.popOpen.addFd.popSetlkw).offsets.getD l.offsets.length 0 = 0 := by
        change (l.offsets ++ [0]).getD l.offsets.length 0 = 0
        simp
      obtain ⟨l₁, hwrite, -, -⟩ :=
        write_fresh (v := v) name body (modeWritten_modeAfter host v) hoff
      have hcount : written l.popClock.popOpen.addFd.popSetlkw body = written l body := rfl
      rw [hcount] at hwrite
      have htouched : (semantics host).touch
          (.write ⟨l.popClock.offsets.length, ⟨name, v.gone.length⟩⟩ body)
          (v.put ⟨[], modeAfter host v⟩) l.popClock.popOpen.addFd.popSetlkw = (written l body,
            v.put ⟨body.take ((written l body).getD 0), modeAfter host v⟩, l₁) := hwrite
      refine SettlesIn.access (j := name) (m := .exclusive) rfl ?_ ?_
      · rw [htouched]
        exact Or.inl hwritten
      rw [htouched]
      refine clock_settlesIn fun writeEnd => ?_
      split
      · exact SettlesIn.own rfl (SettlesIn.own rfl (SettlesIn.release rfl hwritten))
      · refine SettlesIn.own rfl (clock_settlesIn fun syncEnd => ?_)
        exact SettlesIn.own rfl (SettlesIn.own rfl (SettlesIn.release rfl hwritten))
  · have hrefused := openWrite_refused (l := l.popClock) name hopen
    refine SettlesIn.access (role_joinPath host name .exclusive) ?_ ?_
    · rw [htouch, hrefused]
      exact Or.inl hv
    rw [htouch, hrefused]
    exact SettlesIn.release rfl hv

theorem namedOf_settles {γ : Type} {fields : Except Bytes (Bytes × γ)}
    {act : Bytes → Bytes → γ → Prog Unit}
    (hmsg : ∀ msg, fields = .error msg → msg.length < 65536)
    (hact : ∀ name rest, fields = .ok (name, rest) →
      (semantics host).Settles N U (act (joinPath host.root name) name rest) l) :
    (semantics host).Settles N U (namedOf host.root fd fields act) l := by
  unfold namedOf
  cases fields with
  | error msg => exact settles_of_own (sendError_own host fd _ msg (hmsg msg rfl)) l
  | ok field =>
    obtain ⟨name, rest⟩ := field
    dsimp only
    cases hres : safeResolvePath host.root name pathMax with
    | none => exact settles_of_own (sendError_own host fd _ msgInvalidFilename (by decide)) l
    | some path =>
      obtain ⟨-, rfl⟩ := validName_of_safeResolvePath hres
      exact hact name rest rfl

/-- What the request does to an entry keeps it as `N` wants it, and as `U` allows it in
between. -/
structure Passes (host : Host) (N U : Bytes → Node → Prop) (r : Request) : Prop where
  upload : r.header.opcode = opReqUpload → ∀ name body v,
    uploadFields r.payload = .ok (name, body) → N name v →
    (N name (v.put ⟨[], modeAfter host v⟩) ∨ U name (v.put ⟨[], modeAfter host v⟩)) ∧
      (¬ Locks r.loc → N name (v.put ⟨[], modeAfter host v⟩)) ∧
      N name (v.put ⟨body.take ((written r.loc body).getD 0), modeAfter host v⟩)
  delete : r.header.opcode = opReqDelete → ∀ name v, N name v → N name (removed v)
  chmod : r.header.opcode = opReqChmod → ∀ name mode v,
    chmodFields r.payload = .ok (name, mode) → N name v → N name (rechmod mode v)

theorem deleteAct_settles (hN : ∀ v, N name v → N name (removed v)) :
    (semantics host).Settles N U (deleteAct fd (joinPath host.root name) name) l := by
  simp only [deleteAct, Program.pure_eq, Program.bind_unit]
  refine Settles.acquire rfl fun v hv => clock_settlesIn fun start => ?_
  have htouch : N name ((semantics host).touch (.unlink (joinPath host.root name)) v
      l.popClock).2.1 := by
    change N name (unlinkNode v l.popClock).2.1
    by_cases hun : Unlinks v l.popClock
    · rw [unlinkNode_done hun]
      exact hN v hv
    · rw [unlinkNode_missing hun]
      exact hv
  refine SettlesIn.access (role_joinPath host name .exclusive) (Or.inl htouch) ?_
  exact clock_settlesIn fun finish => SettlesIn.release rfl htouch

theorem chmodAct_settles {mode : UInt32} (hN : ∀ v, N name v → N name (rechmod mode v)) :
    (semantics host).Settles N U (chmodAct fd (joinPath host.root name) name mode) l := by
  simp only [chmodAct, Program.pure_eq, Program.bind_unit]
  refine Settles.acquire rfl fun v hv => clock_settlesIn fun start => ?_
  have htouch : N name ((semantics host).touch (.chmod (joinPath host.root name) mode) v
      l.popClock).2.1 := by
    change N name (chmodNode mode v l.popClock).2.1
    by_cases hch : Chmods v l.popClock
    · rw [chmodNode_done mode hch]
      exact hN v hv
    · rw [chmodNode_missing mode hch]
      exact hv
  refine SettlesIn.access (role_joinPath host name .exclusive) (Or.inl htouch) ?_
  exact clock_settlesIn fun finish => SettlesIn.release rfl htouch

theorem request_settles (r : Request) (hcomplete : r.Complete) (hnames : r.NamesFile)
    (hN : Passes host N U r) : (semantics host).Settles N U (r.prog host) r.loc := by
  unfold Request.prog dispatchRequestTimed
  refine Settles.own rfl ?_
  rcases hnames with h | h | h | h
  · rw [if_pos h, handleUploadTimed_eq _ _ _ _ _ hcomplete]
    refine Settles.own rfl (namedOf_settles (fun _ => uploadFields_error_length) ?_)
    intro name body hf
    have hbody : body.length < 2 ^ 64 := by
      have hle := uploadFields_body_length hf
      have hlt := r.header.payloadLen.toNat_lt
      unfold Request.Complete at hcomplete
      omega
    refine Settles.acquire rfl fun v hv => ?_
    obtain ⟨hempty, hlock, hwritten⟩ := hN.upload h name body v hf hv
    exact uploadLocked_settles body _ hbody hv hempty hlock hwritten
  · rw [if_neg (by rw [h]; decide), if_pos h, handleDownload_eq _ _ _ _ hcomplete]
    refine namedOf_settles (fun _ => nameField_error_length (by decide) (by decide)) ?_
    intro name _ _
    exact Settles.acquire rfl fun v hv => settlesIn_of_shared downloadLocked_sectioned hv _
  · rw [if_neg (by rw [h]; decide), if_neg (by rw [h]; decide), if_neg (by rw [h]; decide),
      if_pos h, handleDelete_eq _ _ _ _ hcomplete]
    refine namedOf_settles (fun _ => nameField_error_length (by decide) (by decide)) ?_
    intro name _ _
    exact deleteAct_settles (hN.delete h name)
  · rw [if_neg (by rw [h]; decide), if_neg (by rw [h]; decide), if_neg (by rw [h]; decide),
      if_neg (by rw [h]; decide), if_pos h, handleChmod_eq _ _ _ _ hcomplete]
    refine namedOf_settles (fun _ => chmodFields_error_length) ?_
    intro name mode hf
    exact chmodAct_settles fun v => hN.chmod h name mode v hf

end Handlers

section Runs
variable {W : Type} [DecidableEq W] {host : Host} {requests : List Request} {σ₀ : Bytes → Node}

/-- The initial content of the file, or the beginning of the body of one upload of it. -/
def Begun {T : Type} (request : T → Request) (σ₀ : Bytes → Node) (name c : Bytes) : Prop :=
  content σ₀ name = some c ∨ ∃ t body, (request t).header.opcode = opReqUpload ∧
    uploadFields (request t).payload = .ok (name, body) ∧ c <+: body

/-- The initial mode of the file, that of a new one, or one that a request asks for. -/
def Given {T : Type} (host : Host) (request : T → Request) (σ₀ : Bytes → Node) (name : Bytes)
    (mode : ℕ) : Prop :=
  (∃ f ∈ (σ₀ name).current, f.mode = mode) ∨ mode = host.newMode ∨
    ∃ t asked, (request t).header.opcode = opReqChmod ∧
      chmodFields (request t).payload = .ok (name, asked) ∧ mode = asked.toNat &&& 0o7777

/-- Such a mode, or what a write leaves of it. -/
def Moded {T : Type} (host : Host) (request : T → Request) (σ₀ : Bytes → Node) (name : Bytes)
    (mode : ℕ) : Prop :=
  ∃ given, Given host request σ₀ name given ∧ (mode = given ∨ mode = host.modeWritten given)

/-- The entry has no file, or one with such a content and such a mode. -/
def Bears (P : Bytes → Bytes → Prop) (Q : Bytes → ℕ → Prop) (name : Bytes) (v : Node) : Prop :=
  ∀ f ∈ v.current, P name f.bytes ∧ Q name f.mode

section Entries
variable {T : Type} {request : T → Request} {P : Bytes → Bytes → Prop} {name : Bytes} {v : Node}

theorem Bears.put {c : Bytes} (h : Bears P (Moded host request σ₀) name v) (hc : P name c) :
    Bears P (Moded host request σ₀) name (v.put ⟨c, modeAfter host v⟩) := by
  rintro _ ⟨⟩
  refine ⟨hc, ?_⟩
  dsimp only
  cases hcur : v.current with
  | none =>
    rw [modeAfter, hcur]
    exact ⟨host.newMode, Or.inr (Or.inl rfl), Or.inl rfl⟩
  | some f =>
    rw [modeAfter, hcur]
    obtain ⟨given, hgiven, hmode⟩ := (h f hcur).2
    refine ⟨given, hgiven, Or.inr ?_⟩
    change host.modeWritten f.mode = host.modeWritten given
    rcases hmode with hmode | hmode
    · rw [hmode]
    · rw [hmode, modeWritten_idem]

theorem Bears.rechmod {t : T} {asked : UInt32} (h : Bears P (Moded host request σ₀) name v)
    (hop : (request t).header.opcode = opReqChmod)
    (hf : chmodFields (request t).payload = .ok (name, asked)) :
    Bears P (Moded host request σ₀) name (rechmod asked v) := by
  intro f hcur
  obtain ⟨g, hg, rfl⟩ := Option.map_eq_some_iff.mp hcur
  exact ⟨(h g hg).1, _, Or.inr (Or.inr ⟨t, asked, hop, hf, rfl⟩), Or.inl rfl⟩

theorem bears_start (hP : ∀ name c, content σ₀ name = some c → P name c) (name : Bytes) :
    Bears P (Moded host request σ₀) name (σ₀ name) :=
  fun f hf => ⟨hP name f.bytes (by rw [content, hf, Option.map_some]), f.mode,
    Or.inl ⟨f, hf, rfl⟩, Or.inl rfl⟩

/-- Whatever the outcomes of its calls, a request leaves beginnings of bodies only. -/
theorem passes_begun (t : T) : Passes host (Bears (Begun request σ₀) (Moded host request σ₀))
    (fun _ _ => False) (request t) where
  upload hop name body v hf hv := by
    have hbegun : ∀ c, c <+: body → Begun request σ₀ name c :=
      fun c hc => Or.inr ⟨t, body, hop, hf, hc⟩
    have hempty := hv.put (hbegun [] List.nil_prefix)
    exact ⟨Or.inl hempty, fun _ => hempty, hv.put (hbegun _ (List.take_prefix ..))⟩
  delete _ _ _ _ := nofun
  chmod hop _ _ _ hf hv := hv.rechmod hop hf

/-- A request that is not hindered leaves whole bodies, and has an empty file in between. -/
theorem passes_whole (t : T) (hr : Unhindered (request t).outcomes) :
    Passes host (Bears (OneBody request σ₀) (Moded host request σ₀))
      (Bears (fun _ c => c = []) (Moded host request σ₀)) (request t) where
  upload hop name body v hf hv := by
    refine ⟨Or.inr ?_, fun hlock => absurd (locks_of_unhindered hr) hlock, ?_⟩
    · rintro _ ⟨⟩
      exact ⟨rfl, (hv.put (Or.inr ⟨t, hop, hf⟩) _ rfl).2⟩
    · have hall : (request t).loc.outcomes = (request t).outcomes := rfl
      rw [written_of_unhindered (hall ▸ hr), Option.getD_some, List.take_length]
      exact hv.put (Or.inr ⟨t, hop, hf⟩)
  delete _ _ _ _ := nofun
  chmod hop _ _ _ hf hv := hv.rechmod hop hf

end Entries

theorem pool_passing {N U : Bytes → Node → Prop} (hok : ∀ r ∈ requests, r.Complete ∧ r.NamesFile)
    (h0 : ∀ name, N name (σ₀ name)) (hpasses : ∀ t, Passes host N U (requests.get t))
    {ls : List (PoolLabel W)} {s : Pool W (Fin requests.length)}
    (h : Run (PoolStep host) (openPool W host requests σ₀) ls s) (name : Bytes) :
    N name (s.sys.storage name) ∨
      U name (s.sys.storage name) ∧ ∃ t, (s.sys.locks ()).held t name = some .write := by
  have hoks : ∀ t : Fin requests.length, (requests.get t).Complete ∧ (requests.get t).NamesFile :=
    fun t => hok _ (List.get_mem ..)
  obtain ⟨ks, hprocess⟩ := poolRun_process h
  obtain ⟨js, c, hrun, hR, -⟩ := process_refines hoks hprocess
  have hpassing := passing_run (fun t => request_sectioned host _ (hoks t).1 (hoks t).2)
    (fun t => request_settles _ (hoks t).1 (hoks t).2 (hpasses t)) h0 hrun
  rw [← hR.store]
  refine (hpassing.value name).imp_right (And.imp_right ?_)
  rintro ⟨t, ht⟩
  refine ⟨t, (hR.locked.held_iff t name .write).mpr ?_⟩
  rw [← hR.phase]
  exact ht

/-- At every moment each file has its initial content or the beginning of one upload, and a
mode that somebody asked for or what a write leaves of it. When nothing hinders the requests
it is whole, or empty while its name is locked for writing. -/
theorem pool_contents (host : Host) (requests : List Request) (σ₀ : Bytes → Node)
    (hok : ∀ r ∈ requests, r.Complete ∧ r.NamesFile) {ls : List (PoolLabel W)}
    {s : Pool W (Fin requests.length)}
    (h : Run (PoolStep host) (openPool W host requests σ₀) ls s) (name : Bytes) (f : File)
    (hf : (s.sys.storage name).current = some f) :
    Begun requests.get σ₀ name f.bytes ∧ Moded host requests.get σ₀ name f.mode ∧
      ((∀ r ∈ requests, Unhindered r.outcomes) → OneBody requests.get σ₀ name f.bytes ∨
        f.bytes = [] ∧ ∃ t, (s.sys.locks ()).held t name = some .write) := by
  obtain ⟨hbegun, hmoded⟩ : Begun requests.get σ₀ name f.bytes ∧
      Moded host requests.get σ₀ name f.mode := by
    rcases pool_passing hok (bears_start fun _ _ => Or.inl) passes_begun h name with hN | ⟨hU, -⟩
    · exact hN f hf
    · exact hU.elim
  refine ⟨hbegun, hmoded, fun hr => ?_⟩
  have hrs : ∀ t : Fin requests.length, Unhindered (requests.get t).outcomes :=
    fun t => hr _ (List.get_mem ..)
  rcases pool_passing hok (bears_start fun _ _ => Or.inl) (fun t => passes_whole t (hrs t)) h
    name with hN | ⟨hU, hheld⟩
  · exact Or.inl (hN f hf).1
  · exact Or.inr ⟨(hU f hf).1, hheld⟩

end Runs

/-- The upload has opened the file of the samples and not written it yet. -/
def hollowed : List (PoolLabel Bool) :=
  .take true :: List.replicate 5 (.call true (some 1))

theorem hollowed_reaches :
    ((follow (guarded (poolNext sampleHost) fun _ a => a.Allocates)
      (openPool Bool sampleHost sampleRequests sampleFile) hollowed).map fun s =>
        (s.sys.storage [0x61]).current) = some (some ⟨[], 0o644⟩) := by
  decide +kernel

theorem pool_contents_hollowed :
    ∃ s : Pool Bool (Fin sampleRequests.length), Run (PoolStep sampleHost)
        (openPool Bool sampleHost sampleRequests sampleFile) hollowed s ∧
      Begun sampleRequests.get sampleFile [0x61] [] ∧
      (OneBody sampleRequests.get sampleFile [0x61] [] ∨
        ∃ t, (s.sys.locks ()).held t [0x61] = some .write) := by
  obtain ⟨s, hs, hempty⟩ := Option.map_eq_some_iff.mp hollowed_reaches
  have hok : ∀ r ∈ sampleRequests, r.Complete ∧ r.NamesFile := by
    unfold Request.Complete Request.NamesFile
    decide
  have hr : ∀ r ∈ sampleRequests, Unhindered r.outcomes := by
    intro r hr
    simp only [sampleRequests, List.mem_cons, List.not_mem_nil, or_false] at hr
    rcases hr with rfl | rfl <;>
      exact ⟨fun _ h => absurd h List.not_mem_nil, fun _ h => absurd h List.not_mem_nil⟩
  have hrun := run_of_guarded hs
  obtain ⟨hbegun, -, hwhole⟩ := pool_contents sampleHost sampleRequests sampleFile hok hrun [0x61]
    ⟨[], 0o644⟩ hempty
  exact ⟨s, hrun, hbegun, (hwhole hr).imp_right And.right⟩

end NervFS.Contents
