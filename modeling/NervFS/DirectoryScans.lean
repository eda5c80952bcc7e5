import NervFS.World

/-!
Reading the storage directory as a whole. The names come from the directory stream in an
order of the kernel's choice, and each is looked at by a `stat` of its own; nothing holds
the directory still in between. When no call fails, the listing has one entry for each
file whose path fits its buffer.
-/
namespace NervFS.DirectoryScans

open Programs KeyedStore KeyedStore.Semantics Calls Protocol FileOps Handlers Kernel Responses
open Listings World

/-- What a name of the stream adds to the listing. -/
def scanned (root : Bytes) (σ : Bytes → Node) (name : Bytes) : Option Dirent :=
  if name = dotName ∨ name = dotDotName then none
  else if pathMax ≤ (joinPath root name).length then none
  else (σ name).current.map fun f =>
    { name := name.take nervfsMaxNameLen
      size := UInt64.ofNat f.bytes.length
      mode := UInt32.ofNat (f.mode &&& 0o7777) }

/-- Every call of a listing but the opening of the directory succeeds. -/
structure Scannable (l : Local) : Prop where
  steady : Steady l
  stats : ∀ b ∈ l.outcomes.stats, b = true

/-- The run went from one state to the other without a change to a file or a response. -/
structure Unchanged (s : Server) (l : Local) (s' : Server) (l' : Local) : Prop where
  files : node s'.files = node s.files
  held : s'.held = s.held
  sent : l'.sent = l.sent
  scannable : Scannable l'

theorem Unchanged.trans {s s' s'' : Server} {l l' l'' : Local} (h : Unchanged s l s' l')
    (k : Unchanged s' l' s'' l'') : Unchanged s l s'' l'' :=
  ⟨k.files.trans h.files, k.held.trans h.held, k.sent.trans h.sent, k.scannable⟩

section Scan
variable {host : Host} {α : Type} {Q : α → Server × Local → Prop} {s : Server} {l : Local}

theorem exec_own_wp {e : Call} {f : Reply e → Prog α} (hr : role host e = .own)
    (h : (f (own e l).1).wp (exec host) Q (s, (own e l).2)) :
    (invoke e >>= f).wp (exec host) Q (s, l) :=
  Program.wp_call (exec_own hr s l) h

theorem Scannable.popMalloc (h : Scannable l) : Scannable l.popMalloc :=
  ⟨⟨h.steady.delivers, fun b hb => h.steady.mallocs b (List.mem_of_mem_tail hb)⟩, h.stats⟩

theorem Scannable.popStat (h : Scannable l) : Scannable l.popStat :=
  ⟨⟨h.steady.delivers, h.steady.mallocs⟩, fun b hb => h.stats b (List.mem_of_mem_tail hb)⟩

theorem malloc_wp {size : ℕ} {f : Bool → Prog α} (hl : Scannable l)
    (h : ∀ l', Unchanged s l s l' → (f true).wp (exec host) Q (s, l')) :
    (malloc size >>= f).wp (exec host) Q (s, l) := by
  refine exec_own_wp rfl ?_
  change (f (l.outcomes.mallocs.headD true)).wp _ Q (s, l.popMalloc)
  rw [head_mallocs hl.steady.mallocs]
  exact h _ ⟨rfl, rfl, rfl, hl.popMalloc⟩

theorem stat_wp {name : Bytes} {f : Option Stat → Prog α} (hl : Scannable l)
    (h : ∀ s' l', Unchanged s l s' l' →
      (f ((node s.files name).current.map fun file => ⟨true, file.bytes.length, file.mode⟩)).wp
        (exec host) Q (s', l')) :
    (stat (joinPath host.root name) >>= f).wp (exec host) Q (s, l) := by
  have hrole : role host (.stat (joinPath host.root name)) = .access name .shared :=
    Sections.role_joinPath host name .shared
  refine Program.wp_call (exec_access hrole s l) ?_
  have htouch : touch host (.stat (joinPath host.root name)) (node s.files name) l =
      ((node s.files name).current.map fun file => ⟨true, file.bytes.length, file.mode⟩,
        node s.files name, l.popStat) := by
    simp only [Kernel.touch, statNode, head_mallocs hl.stats, if_true]
  rw [htouch]
  exact h _ _ ⟨node_insert_same .., rfl, rfl, hl.popStat⟩

theorem closedir_wp {dir : Dir} {a : α} (h : Q a (s, l)) :
    (closedir dir >>= fun _ => Program.ret a).wp (exec host) Q (s, l) :=
  exec_own_wp rfl ((Program.wp_ret ..).mpr h)

/-- The loop adds what each name of the rest of the stream contributes. -/
theorem listLoop_wp {Q : Option (List Dirent) → Server × Local → Prop} (dir : Dir)
    (names : List Bytes) (capacity : ℕ) (entries : List Dirent) (hl : Scannable l)
    (h : ∀ s' l', Unchanged s l s' l' →
      Q (some (entries ++ names.filterMap (scanned host.root (node s.files)))) (s', l')) :
    (listLoop host.root dir names capacity entries).wp (exec host) Q (s, l) := by
  induction names generalizing capacity entries s l with
  | nil =>
    refine closedir_wp ?_
    have hdone := h s l ⟨rfl, rfl, rfl, hl⟩
    rwa [List.filterMap_nil, List.append_nil] at hdone
  | cons name names ih =>
    have hskip : scanned host.root (node s.files) name = none → ∀ s' l', Unchanged s l s' l' →
        (listLoop host.root dir names capacity entries).wp (exec host) Q (s', l') := by
      intro hnone s' l' hu
      refine ih capacity entries hu.scannable fun s'' l'' hu' => ?_
      have hdone := h s'' l'' (hu.trans hu')
      rwa [List.filterMap_cons_none hnone, ← hu.files] at hdone
    have hstay : Unchanged s l s l := ⟨rfl, rfl, rfl, hl⟩
    unfold listLoop
    by_cases hdots : name = dotName ∨ name = dotDotName
    · rw [if_pos hdots]
      exact hskip (if_pos hdots) s l hstay
    rw [if_neg hdots]
    dsimp only
    by_cases hlong : pathMax ≤ (joinPath host.root name).length
    · rw [if_pos hlong]
      apply hskip _ s l hstay
      unfold scanned
      rw [if_neg hdots, if_pos hlong]
    rw [if_neg hlong]
    refine stat_wp hl fun s' l' hu => ?_
    have hscan : scanned host.root (node s.files) name =
        (node s.files name).current.map fun f =>
          { name := name.take nervfsMaxNameLen
            size := UInt64.ofNat f.bytes.length
            mode := UInt32.ofNat (f.mode &&& 0o7777) } := by
      unfold scanned
      rw [if_neg hdots, if_neg hlong]
    cases hcur : (node s.files name).current with
    | none =>
      rw [hcur] at hscan
      exact hskip hscan s' l' hu
    | some f =>
      rw [hcur, Option.map_some] at hscan
      have hnext : ∀ capacity' s' l', Unchanged s l s' l' →
          (listLoop host.root dir names capacity' (entries ++
            [{ name := name.take nervfsMaxNameLen
               size := UInt64.ofNat f.bytes.length
               mode := UInt32.ofNat (f.mode &&& 0o7777) }])).wp (exec host) Q (s', l') := by
        intro capacity' s' l' hu
        refine ih capacity' _ hu.scannable fun s'' l'' hu' => ?_
        have hdone := h s'' l'' (hu.trans hu')
        rw [List.filterMap_cons_some hscan] at hdone
        rw [List.append_assoc, hu.files]
        exact hdone
      change Program.wp _ (if entries.length = capacity then _ else _) Q (s', l')
      by_cases hfull : entries.length = capacity
      · rw [if_pos hfull]
        exact malloc_wp hu.scannable fun l'' hu' => hnext _ s' l'' (hu.trans hu')
      · rw [if_neg hfull]
        exact hnext capacity s' l' hu

theorem fileopsListDir_wp {Q : Option (List Dirent) → Server × Local → Prop}
    (hl : Scannable l) (hopen : l.outcomes.opendirs.headD true = true)
    (h : ∀ s' l', Unchanged s l s' l' →
      Q (some ((stream s.files l).filterMap (scanned host.root (node s.files)))) (s', l')) :
    (fileopsListDir host.root).wp (exec host) Q (s, l) := by
  have hexec : exec host .opendir (s, l) =
      some (some (⟨l.offsets.length⟩, stream s.files l), s, popDir l) := by
    change some ((openDirectory s l).1, s, (openDirectory s l).2) = _
    unfold openDirectory
    rw [if_pos hopen]
  have hpop : Unchanged s l s (popDir l) := ⟨rfl, rfl, rfl, ⟨⟨hl.steady.1, hl.steady.2⟩, hl.stats⟩⟩
  unfold fileopsListDir
  refine Program.wp_call hexec (malloc_wp hpop.scannable fun l' hu => ?_)
  exact listLoop_wp _ _ _ _ hu.scannable fun s'' l'' hu' => h s'' l'' ((hpop.trans hu).trans hu')

end Scan

theorem sendList_own (host : Host) (clientFd : ℕ) (us : UInt64) {entries : List Dirent}
    (henc : Encodable entries) :
    (sendList clientFd us entries).All fun e => role host e = .own := by
  rw [sendList_eq clientFd us henc]
  refine ⟨rfl, fun r => ?_⟩
  cases r with
  | false => exact Sections.sendError_own host clientFd _ msgNoMemory (by decide)
  | true =>
    refine Sections.sendMessage_own host clientFd _ (some (listBody entries)) _ us ?_
    intro buf hbuf
    cases hbuf
    exact (UInt32.toNat_ofNat_of_lt' henc.total).le

/-- A listing answers with an entry for each file, in the order of the stream. -/
theorem handleList_wp {host : Host} {s : Server} {l : Local} (clientFd : ℕ) (hheld : s.held = [])
    (hl : Scannable l) (hopen : l.outcomes.opendirs.headD true = true)
    (henc : Encodable ((stream s.files l).filterMap (scanned host.root (node s.files)))) :
    (handleList host.root clientFd).wp (exec host)
      (fun _ t => t.1.held = [] ∧ node t.1.files = node s.files ∧ ∃ us, t.2.sent = l.sent ++
        frame opRespListData us
          (listBody ((stream s.files l).filterMap (scanned host.root (node s.files))))) (s, l) := by
  rw [handleList_eq]
  refine exec_own_wp rfl (Program.wp_bind (fileopsListDir_wp (l := l.popClock) ?_ hopen ?_))
  · exact ⟨⟨hl.steady.delivers, hl.steady.mallocs⟩, hl.stats⟩
  · intro s' l' hu
    refine exec_own_wp rfl ?_
    dsimp only
    refine Program.wp_mono (own_wp (sendList_own host clientFd _ henc) (hu.held.trans hheld)
      (sendList_wp (Q := fun _ t => t.1 = node s.files ∧ ∃ us, t.2.sent = l.sent ++
        frame opRespListData us
          (listBody ((stream s.files l).filterMap (scanned host.root (node s.files)))))
        _ ⟨hu.scannable.steady.delivers, hu.scannable.steady.mallocs⟩ henc ?_)) fun _ t ht => ht
    intro l'' hsent
    exact ⟨hu.files, _, hsent.trans (congrArg (· ++ _) hu.sent)⟩

theorem exec_run {host : Host} {α : Type} {e : Call} {f : Reply e → Prog α} {s t : Server × Local}
    {r : Reply e} (h : exec host e s = some (r, t)) :
    (invoke e >>= f).run (exec host) s = (f r).run (exec host) t :=
  (Program.run_call _ e f s).trans (by rw [h]; rfl)

/-- A directory too large for the length field of a listing brings the handler down. -/
theorem handleList_stuck {host : Host} {s : Server} {l : Local} (clientFd : ℕ) (hl : Scannable l)
    (hopen : l.outcomes.opendirs.headD true = true) {entries : List Dirent}
    (hentries : entries = (stream s.files l).filterMap (scanned host.root (node s.files)))
    (hnames : ∀ e ∈ entries, e.name.length ≤ nervfsMaxNameLen)
    (htotal : 2 ^ 32 ≤ (listBody entries).length) :
    (handleList host.root clientFd).run (exec host) (s, l) = none := by
  have hscan : (fileopsListDir host.root).wp (exec host)
      (fun rc t => rc = some entries ∧ Scannable t.2) (s, l.popClock) := by
    refine fileopsListDir_wp ⟨⟨hl.steady.delivers, hl.steady.mallocs⟩, hl.stats⟩ hopen ?_
    intro s' l' hu
    exact ⟨congrArg some hentries.symm, hu.scannable⟩
  obtain ⟨_, t, hrun, rfl, ht⟩ := hscan
  have hclock : ∀ (s : Server) (l : Local),
      exec host .clockGettime (s, l) = some (l.outcomes.clocks.headD ⟨0, 0⟩, s, l.popClock) :=
    exec_own rfl
  have hmalloc : ∀ size, exec host (.malloc size) (t.1, t.2.popClock) =
      some (true, t.1, t.2.popClock.popMalloc) := by
    intro size
    refine (exec_own rfl ..).trans ?_
    change some (t.2.outcomes.mallocs.headD true, _) = _
    rw [head_mallocs ht.steady.mallocs]
    rfl
  rw [handleList_eq]
  refine (exec_run (hclock s l)).trans ?_
  rw [Program.run_bind, hrun]
  refine (exec_run (hclock t.1 t.2)).trans ?_
  dsimp only
  rw [sendList_stuck clientFd _ hnames htotal]
  exact (exec_run (hmalloc _)).trans rfl

end NervFS.DirectoryScans
