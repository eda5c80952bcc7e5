import NervFS.Catalog
import NervFS.WholeFiles
import NervFS.Lib.Linearization

/-!
The server under concurrent requests is still a finite map of names to files. A request
takes effect at one moment between its first call and its response: when it gets its name
lock, or when it is turned down. The responses are those of the map, which is asked for one
request after another in the order of these moments, and a file that nobody writes to is
the one that the map holds.
-/
namespace NervFS.ConcurrentCatalog

open Programs KeyedStore KeyedStore.Semantics Transitions Calls Protocol FileOps Handlers
open Requests Operations Kernel Responses Alone World Replies Workers Holding Serialization
open Serving Catalog
open FailedUploads (sampleHost sampleFile)
open WholeFiles (ready sampleRequests overtaken overtaken_returns)

section Requests
variable {host : Host} {σ σ' : Bytes → Node} {m : FileMap} {r : Request}

/-- A calm request for one file ends as its operation demands, also without the directory. -/
theorem named_ends (hr : r.Complete) (hnames : r.NamesFile) (hc : Calm r.outcomes)
    (hsound : Sound host σ) :
    (r.prog host).wp (semantics host).handle (fun _ => Ends host σ (operationOf r) r.loc)
      (σ, r.loc) := by
  have hcalm : Calm r.loc.outcomes := hc
  unfold Request.prog
  rw [dispatchRequestTimed_eq _ _ _ _ hr]
  refine quiet_wp (idle_own rfl) rfl fun _ => ?_
  unfold answer operationOf
  cases hd : decode r.header.opcode r.payload with
  | error msg => exact refuse_ends _ (decode_error_length hd) hcalm
  | ok op =>
    have hop : op ≠ .list := by
      rintro rfl
      have hopcode : opReqList = r.header.opcode := (decode_ok_iff.mp hd).1
      rw [Request.NamesFile, ← hopcode] at hnames
      exact absurd hnames (by decide)
    have hlen : (payloadOf op).length < 2 ^ 32 := by
      rw [← carried_length hd hop, ← hr]
      exact r.header.payloadLen.toNat_lt
    exact serve_ends hop r.netStart hcalm hlen hsound

theorem named_catalog
    (hperm : ∀ kind mode, host.permits kind mode = true) (hr : r.Complete) (hnames : r.NamesFile)
    (hc : Calm r.outcomes) (hsound : Sound host σ) (habs : Abstracts σ m) {l : Local}
    (hrun : (r.prog host).run (semantics host).handle (σ, r.loc) = some ((), σ', l)) :
    Sound host σ' ∧ ∃ m', CatalogStep host m (r, l.sent) m' ∧ Abstracts σ' m' := by
  obtain ⟨_, t, hrun', msg, hanswered, hsent, hlen⟩ := named_ends hr hnames hc hsound
  rw [hrun'] at hrun
  cases hrun
  obtain ⟨m', hconforms, habs'⟩ := conforms_of_answered hperm hanswered habs
  exact ⟨answered_sound hr hanswered hsound, m', ⟨msg, hconforms, hsent, hlen⟩, habs'⟩

variable {requests : List Request} {m₀ : FileMap} {σ₀ : Bytes → Node}

/-- The response that a serial run has recorded for a request. -/
def recorded (outs : Fin requests.length → Option (Unit × Local)) (t : Fin requests.length) :
    Bytes :=
  ((outs t).map fun q => q.2.sent).getD []

theorem serial_catalog (hperm : ∀ kind mode, host.permits kind mode = true)
    (hok : ∀ r ∈ requests, r.Complete ∧ r.NamesFile) (hcalm : ∀ r ∈ requests, Calm r.outcomes)
    (hsound : Sound host σ₀) (habs : Abstracts σ₀ m₀) {ts : List (Fin requests.length)}
    {σ : Bytes → Node} {outs : Fin requests.length → Option (Unit × Local)}
    (h : Serial (semantics host) (ready host requests) σ₀ ts σ outs) (hnd : ts.Nodup) :
    Sound host σ ∧ ∃ m, Abstracts σ m ∧
      Run (CatalogStep host) m₀ (ts.map fun t => (requests.get t, recorded outs t)) m := by
  induction h with
  | nil => exact ⟨hsound, m₀, habs, .nil⟩
  | @snoc ts σ outs t a σ' l' hser hrun ih =>
    rw [List.nodup_append] at hnd
    have hnew : t ∉ ts := fun ht => hnd.2.2 t ht t (List.mem_singleton_self t) rfl
    obtain ⟨hsoundσ, m, habsσ, hperformed⟩ := ih hnd.1
    have hmem : requests.get t ∈ requests := List.get_mem ..
    obtain ⟨hsound', m', hstep, habs'⟩ := named_catalog hperm (hok _ hmem).1 (hok _ hmem).2
      (hcalm _ hmem) hsoundσ habsσ hrun
    refine ⟨hsound', m', habs', ?_⟩
    have hold : ts.map (fun u => (requests.get u,
          recorded (Function.update outs t (some (a, l'))) u)) =
        ts.map fun u => (requests.get u, recorded outs u) := by
      refine List.map_congr_left fun u hu => ?_
      unfold recorded
      rw [Function.update_of_ne (ne_of_mem_of_not_mem hu hnew)]
    have hlast : recorded (Function.update outs t (some (a, l'))) t = l'.sent := by
      unfold recorded
      rw [Function.update_self]
      rfl
    rw [List.map_append, hold, List.map_singleton, hlast]
    exact hperformed.snoc hstep

end Requests

section Runs
variable {host : Host} {requests : List Request}

/-- A run of the process from any of its states is a run of the keyed store. -/
theorem refines_run {s s' : Workers.State Unit (Fin requests.length)}
    {c : Config Call Reply Bytes Node Local (Fin requests.length) Unit} (hR : Refines host s c)
    {ls : List (Label (Fin requests.length))} (h : Run (ProcessStep host) s ls s') :
    ∃ ks c', Run (KeyedStore.Step (semantics host)) c ks c' ∧ Refines host s' c' ∧
      s'.acquired = s.acquired ++ acquisitions ks := by
  refine h.invariant (I := fun s' => ∃ ks c', Run (KeyedStore.Step (semantics host)) c ks c' ∧
    Refines host s' c' ∧ s'.acquired = s.acquired ++ acquisitions ks)
    ⟨[], c, .nil, hR, (List.append_nil _).symm⟩ ?_
  rintro s₁ a s₂ ⟨ks, c₁, hrun, hR₁, hacq⟩ hstep
  obtain ⟨ks', c₂, hrun', hR₂, hacq'⟩ := hR₁.step hstep
  exact ⟨ks ++ ks', c₂, hrun.append hrun', hR₂, by
    rw [hacq', hacq, acquisitions_append, List.append_assoc]⟩

/-- A handler that has made no call stands at its beginning. -/
def Untouched (host : Host) (requests : List Request)
    (s : Workers.State Unit (Fin requests.length)) : Prop :=
  ∀ t, (s.service t).log = [] → (s.service t).prog = (requests.get t).prog host

theorem untouched_step {s s' : Workers.State Unit (Fin requests.length)}
    {a : Label (Fin requests.length)} (h : Untouched host requests s)
    (hstep : next host one s a = some s') : Untouched host requests s' := by
  rcases next_cases hstep with ⟨t, locks, -, -, rfl⟩ |
    ⟨t, malloc, e, k, name, m, locks, -, -, -, -, -, rfl⟩ | ⟨t, malloc, e, k, r, l, -, ha⟩
  · exact h
  · exact h
  · intro u hu
    rw [ha.service] at hu ⊢
    by_cases hut : u = t
    · subst hut
      rw [Function.update_self] at hu
      exact absurd hu (List.append_ne_nil_of_right_ne_nil _ (List.cons_ne_nil _ _))
    · rw [Function.update_of_ne hut] at hu ⊢
      exact h u hu

variable {W : Type}

/-- The requests of the order have taken effect, one after another, on the map `m₀`, which
has become `m`, and `sent` is what each of them was or will be answered with. -/
structure TakesEffect (host : Host) (requests : List Request) (m₀ : FileMap)
    (s : Pool W (Fin requests.length)) (order : List (Fin requests.length))
    (sent : Fin requests.length → Bytes) (m : FileMap) : Prop where
  performed : Run (CatalogStep host) m₀ (order.map fun t => (requests.get t, sent t)) m
  once : order.Nodup
  /-- In the order in which the name locks were granted. -/
  acquired : s.sys.acquired.Sublist order
  /-- Not before its first call. -/
  begun : ∀ t ∈ order, (s.sys.service t).log ≠ []
  /-- Not after its response. -/
  returned : ∀ t, (s.sys.service t).prog = .ret () →
    t ∈ order ∧ (s.sys.service t).loc.sent = sent t
  stored : ∀ name, (∀ t, (s.sys.locks ()).held t name ≠ some .write) →
    m.lookup name = (s.sys.storage name).current

/-- A place in the order of the keyed store is a place in the order of the map. -/
theorem takesEffect_of_linearizes {m₀ : FileMap} {σ₀ σs : Bytes → Node}
    {s : Pool W (Fin requests.length)} {order : List (Fin requests.length)}
    {c : Config Call Reply Bytes Node Local (Fin requests.length) Unit}
    {outs : Fin requests.length → Option (Unit × Local)}
    (hperm : ∀ kind mode, host.permits kind mode = true)
    (hok : ∀ r ∈ requests, r.Complete ∧ r.NamesFile) (hcalm : ∀ r ∈ requests, Calm r.outcomes)
    (hsound : Sound host σ₀) (habs : Abstracts σ₀ m₀) (hR : Refines host s.sys c)
    (huntouched : Untouched host requests s.sys)
    (h : Linearizes (semantics host) (ready host requests) σ₀ s.sys.acquired order c σs outs) :
    ∃ m, TakesEffect host requests m₀ s order (recorded outs) m := by
  obtain ⟨-, m, habsσ, hperformed⟩ := serial_catalog hperm hok hcalm hsound habs h.serial
    h.nodup
  obtain ⟨out, hi, -⟩ := h.standing
  refine ⟨m, hperformed, h.nodup, h.acquired, fun t ht hlog => ?_, fun t ht => ?_,
    fun name hfree => ?_⟩
  · rcases h.begun t ht with hacq | ⟨a, ha⟩
    · have hbefore : (c.thread t).phase = .before := by
        rw [hR.phase, hlog]
        rfl
      have hstanding := (hi.thread t).2
      simp only [hbefore] at hstanding
      exact hstanding.1 hacq
    · rw [hR.prog, huntouched t hlog] at ha
      cases ha
  · obtain ⟨hmem, hout⟩ := h.returned t () ((hR.prog t).trans ht)
    refine ⟨hmem, ?_⟩
    unfold recorded
    rw [hout, ← hR.loc t]
    rfl
  · rw [habsσ name, ← hR.store, ← hi.settled name fun t ht => ?_]
    refine hfree t ?_
    rw [hR.locked.held_iff, ← hR.phase]
    exact ht

theorem prog_calls (r : Request) (a : Unit) : r.prog host ≠ .ret a := by
  unfold Request.prog dispatchRequestTimed
  nofun

/-- What is known of the pool while requests take effect. -/
structure Standing (host : Host) (requests : List Request) (σ₀ : Bytes → Node)
    (s : Pool W (Fin requests.length)) (order : List (Fin requests.length))
    (outs : Fin requests.length → Option (Unit × Local)) : Prop where
  untouched : Untouched host requests s.sys
  linear : ∃ c σs, Refines host s.sys c ∧
    Linearizes (semantics host) (ready host requests) σ₀ s.sys.acquired order c σs outs

theorem openPool_standing (hok : ∀ r ∈ requests, r.Complete ∧ r.NamesFile) (σ₀ : Bytes → Node) :
    Standing host requests σ₀ (openPool W host requests σ₀) [] fun _ => none where
  untouched _ _ := rfl
  linear := by
    have hoks : ∀ t : Fin requests.length, (requests.get t).Complete ∧
        (requests.get t).NamesFile := fun t => hok _ (List.get_mem ..)
    refine ⟨initial (ready host requests) σ₀, σ₀, ?_, ?_⟩
    · exact ⟨rfl, fun _ => rfl, fun _ => rfl, fun _ => rfl, start_locked host one hoks σ₀⟩
    · refine initial_linearizes (fun t => ?_) fun t => prog_calls _
      exact request_sectioned host _ (hoks t).1 (hoks t).2

theorem Standing.run {σ₀ : Bytes → Node} {s s' : Pool W (Fin requests.length)} [DecidableEq W]
    {order : List (Fin requests.length)} {outs : Fin requests.length → Option (Unit × Local)}
    (h : Standing host requests σ₀ s order outs) {ls : List (PoolLabel W)}
    (hrun : Run (PoolStep host) s ls s') :
    ∃ more outs', Standing host requests σ₀ s' (order ++ more) outs' ∧
      ∀ t ∈ order, outs' t = outs t := by
  obtain ⟨ks, hprocess⟩ := poolRun_process hrun
  obtain ⟨c, σs, hR, hlin⟩ := h.linear
  obtain ⟨js, c', hstore, hR', hacq⟩ := refines_run hR hprocess
  obtain ⟨more, σs', outs', hlin', hsame⟩ := hlin.run hstore
  rw [← hacq] at hlin'
  refine ⟨more, outs', ⟨?_, c', σs', hR', hlin'⟩, hsame⟩
  exact hprocess.invariant h.untouched fun _ _ _ hu hstep => untouched_step hu hstep.1

/-- While the requests run, in any interleaving, they take effect on a finite map one after
another, each between its first call and its response, and are answered by the map. What has
taken effect is not undone: the order grows at its end, and the responses in it stay. -/
theorem pool_linearizes [DecidableEq W] {m₀ : FileMap} {σ₀ : Bytes → Node}
    (hperm : ∀ kind mode, host.permits kind mode = true)
    (hok : ∀ r ∈ requests, r.Complete ∧ r.NamesFile) (hcalm : ∀ r ∈ requests, Calm r.outcomes)
    (hsound : Sound host σ₀) (habs : Abstracts σ₀ m₀) {ls : List (PoolLabel W)}
    {s : Pool W (Fin requests.length)}
    (h : Run (PoolStep host) (openPool W host requests σ₀) ls s) :
    ∃ order sent m, TakesEffect host requests m₀ s order sent m ∧
      ∀ ls' s', Run (PoolStep host) s ls' s' →
        ∃ more sent' m', TakesEffect host requests m₀ s' (order ++ more) sent' m' ∧
          ∀ t ∈ order, sent' t = sent t := by
  have heffect : ∀ {s' : Pool W (Fin requests.length)} {order outs},
      Standing host requests σ₀ s' order outs →
      ∃ m, TakesEffect host requests m₀ s' order (recorded outs) m := by
    intro s' order outs hs
    obtain ⟨c, σs, hR, hlin⟩ := hs.linear
    exact takesEffect_of_linearizes hperm hok hcalm hsound habs hR hs.untouched hlin
  obtain ⟨order, outs, hs, -⟩ := (openPool_standing hok σ₀).run h
  obtain ⟨m, hm⟩ := heffect hs
  refine ⟨_, _, m, hm, fun ls' s' h' => ?_⟩
  obtain ⟨more, outs', hs', hsame⟩ := hs.run h'
  obtain ⟨m', hm'⟩ := heffect hs'
  refine ⟨more, _, m', hm', fun t ht => ?_⟩
  unfold recorded
  rw [hsame t ht]

end Runs

/-- The map that stands for the stored file of the samples. -/
def sampleMap : FileMap := Finmap.singleton [0x61] ⟨[7, 8, 9], 0o644⟩

theorem sampleFile_abstracts : Abstracts sampleFile sampleMap := by
  intro name
  unfold sampleFile sampleMap
  by_cases hname : name = [0x61]
  · subst hname
    rw [if_pos rfl, Finmap.lookup_singleton_eq]
  · rw [if_neg hname]
    exact Finmap.lookup_eq_none.mpr fun h => hname ((Finmap.mem_singleton ..).mp h)

theorem sampleFile_sound : Sound sampleHost sampleFile := by
  intro name f hf
  unfold sampleFile at hf
  split at hf
  · cases hf
    subst_vars
    exact ⟨by constructor <;> decide, by decide, by decide⟩
  · cases hf

/-- The upload and the download that waited for it have both taken effect. -/
theorem pool_linearizes_overtaken :
    ∃ s : Pool Bool (Fin sampleRequests.length), Run (PoolStep sampleHost)
        (openPool Bool sampleHost sampleRequests sampleFile) overtaken s ∧
      ∃ order sent m, TakesEffect sampleHost sampleRequests sampleMap s order sent m ∧
        ∀ t, t ∈ order := by
  obtain ⟨s, hs, hreturned⟩ := Option.map_eq_some_iff.mp overtaken_returns
  have hdone : ∀ t, (s.sys.service t).prog = .ret () := by
    obtain ⟨h0, h1⟩ : (s.sys.service ⟨0, by decide⟩).prog.result = some () ∧
        (s.sys.service ⟨1, by decide⟩).prog.result = some () := by
      simpa [sampleRequests, List.finRange_succ] using hreturned
    rintro ⟨_ | _ | n, hn⟩
    · exact Program.result_eq_some.mp h0
    · exact Program.result_eq_some.mp h1
    · exact absurd hn (by simp [sampleRequests])
  have hok : ∀ r ∈ sampleRequests, r.Complete ∧ r.NamesFile := by
    unfold Request.Complete Request.NamesFile
    decide
  have hcalm : ∀ r ∈ sampleRequests, Calm r.outcomes := by
    intro r hr
    simp only [sampleRequests, List.mem_cons, List.not_mem_nil, or_false] at hr
    rcases hr with rfl | rfl <;>
      exact (plainRequest_ordinary (s := {}) (by decide) (by decide)).calm
  have hrun := run_of_guarded hs
  obtain ⟨order, sent, m, heffect, -⟩ := pool_linearizes (fun _ _ => rfl) hok hcalm
    sampleFile_sound sampleFile_abstracts hrun
  exact ⟨s, hrun, order, sent, m, heffect, fun t => (heffect.returned t (hdone t)).1⟩

end NervFS.ConcurrentCatalog
