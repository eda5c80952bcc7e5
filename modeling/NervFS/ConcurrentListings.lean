import NervFS.Contents
import NervFS.DirectoryScans
import NervFS.ListedNames
import NervFS.Lib.Interference

/-!
A listing takes no lock, so the directory changes under it. Each entry shows a file as it
was at some moment since the listing began, and a file that is there all the time is listed
if the directory stream delivers its name. Among the workers of one process such a glimpse
is a whole content, or an empty one in the middle of an upload.
-/
namespace NervFS.ConcurrentListings

open Programs KeyedStore KeyedStore.Semantics Transitions Calls Protocol FileOps Handlers
open Kernel Responses Alone Listings World DirectoryScans ListedNames Workers WholeFiles Contents
open FailedUploads (content sampleHost sampleFile)

/-- A listing among others: where they stand, what the kernel keeps for the listing, the
directory at each moment since it began, and the names that its stream delivers. -/
structure Scene (X : Type) where
  world : X
  loc : Local
  seen : List (Bytes → Node)
  stream : List Bytes := []

section Scenes
variable {X : Type}

/-- The others take a step. -/
inductive Moves (env : X → X → Prop) (storage : X → Bytes → Node) : Scene X → Scene X → Prop
  | step {s : Scene X} {x : X} (h : env s.world x) :
    Moves env storage s { s with world := x, seen := s.seen ++ [storage x] }

/-- The answer to a call of the listing. The stream delivers some names, each once. -/
inductive Answer (host : Host) (storage : X → Bytes → Node) :
    (e : Call) → Scene X → Reply e → Scene X → Prop
  | own {e : Call} {s : Scene X} (hr : role host e = .own) :
    Answer host storage e s (own e s.loc).1 { s with loc := (own e s.loc).2 }
  | read {e : Call} {s : Scene X} {name : Bytes} (hr : role host e = .access name .shared) :
    Answer host storage e s (touch host e (storage s.world name) s.loc).1
      { s with loc := (touch host e (storage s.world name) s.loc).2.2 }
  | refused {s : Scene X} : Answer host storage .opendir s none s
  | opened {s : Scene X} {dir : Dir} {names : List Bytes} (hnodup : names.Nodup)
    (hnames : ∀ n ∈ names, DirectoryName n) :
    Answer host storage .opendir s (some (dir, names)) { s with stream := names }

/-- The entry shows its file as it was at one of the moments. -/
def Glimpse (seen : List (Bytes → Node)) (e : Dirent) : Prop :=
  ∃ σ ∈ seen, ∃ f, (σ e.name).current = some f ∧ e.size = UInt64.ofNat f.bytes.length ∧
    e.mode = UInt32.ofNat (f.mode &&& 0o7777)

/-- What the listing has made of the names that it has passed. -/
structure Glimpsed (root : Bytes) (seen : List (Bytes → Node)) (passed : List Bytes)
    (entries : List Dirent) : Prop where
  /-- Each name once, in the order of the stream. -/
  inOrder : (entries.map Dirent.name).Sublist passed
  addressable : ∀ e ∈ entries, ValidName root pathMax e.name
  shown : ∀ e ∈ entries, Glimpse seen e
  complete : ∀ n ∈ passed, ValidName root pathMax n → (∀ σ ∈ seen, (σ n).current ≠ none) →
    n ∈ entries.map Dirent.name

section Entries
variable {root : Bytes} {seen : List (Bytes → Node)} {passed : List Bytes} {entries : List Dirent}
variable {name : Bytes}

theorem Glimpsed.later (h : Glimpsed root seen passed entries) (σ : Bytes → Node) :
    Glimpsed root (seen ++ [σ]) passed entries where
  inOrder := h.inOrder
  addressable := h.addressable
  shown e he := by
    obtain ⟨τ, hτ, hglimpse⟩ := h.shown e he
    exact ⟨τ, List.mem_append_left _ hτ, hglimpse⟩
  complete n hn hvalid hthere :=
    h.complete n hn hvalid fun τ hτ => hthere τ (List.mem_append_left _ hτ)

/-- A name that no operation accepts, or whose file was away at some moment. -/
theorem Glimpsed.skip (h : Glimpsed root seen passed entries)
    (hout : ¬ ValidName root pathMax name ∨ ∃ σ ∈ seen, (σ name).current = none) :
    Glimpsed root seen (passed ++ [name]) entries where
  inOrder := h.inOrder.trans (List.sublist_append_left ..)
  addressable := h.addressable
  shown := h.shown
  complete n hn hvalid hthere := by
    rcases List.mem_append.mp hn with hn | hn
    · exact h.complete n hn hvalid hthere
    · obtain rfl := List.mem_singleton.mp hn
      rcases hout with hinvalid | ⟨σ, hσ, hnone⟩
      · exact absurd hvalid hinvalid
      · exact absurd hnone (hthere σ hσ)

theorem Glimpsed.add (h : Glimpsed root seen passed entries) (hvalid : ValidName root pathMax name)
    {e : Dirent} (hname : e.name = name) (he : Glimpse seen e) :
    Glimpsed root seen (passed ++ [name]) (entries ++ [e]) where
  inOrder := by
    rw [List.map_append, List.map_singleton, hname]
    exact h.inOrder.append_right [name]
  addressable d hd := by
    rcases List.mem_append.mp hd with hd | hd
    · exact h.addressable d hd
    · rw [List.mem_singleton.mp hd, hname]
      exact hvalid
  shown d hd := by
    rcases List.mem_append.mp hd with hd | hd
    · exact h.shown d hd
    · rw [List.mem_singleton.mp hd]
      exact he
  complete n hn hvalid' hthere := by
    rw [List.map_append]
    rcases List.mem_append.mp hn with hn | hn
    · exact List.mem_append_left _ (h.complete n hn hvalid' hthere)
    · rw [List.mem_singleton.mp hn, List.map_singleton, hname]
      exact List.mem_append_right _ (List.mem_singleton_self name)

end Entries

/-- Where the listing stands, whatever the others do: what the kernel keeps for it, and what
it has made of the names that it has passed. -/
structure Standing (host : Host) (storage : X → Bytes → Node) (names passed : List Bytes)
    (entries : List Dirent) (l : Local) (s : Scene X) : Prop where
  present : storage s.world ∈ s.seen
  loc : s.loc = l
  stream : s.stream = names
  glimpsed : Glimpsed host.root s.seen passed entries

variable {host : Host} {env : X → X → Prop} {storage : X → Bytes → Node}
variable {α : Type} {s s' : Scene X} {l : Local} {names passed : List Bytes}
variable {entries : List Dirent}

theorem Standing.moves (s s' : Scene X) (hs : Moves env storage s s')
    (h : Standing host storage names passed entries l s) :
    Standing host storage names passed entries l s' := by
  cases hs
  exact ⟨List.mem_append_right _ (List.mem_singleton_self _), h.loc, h.stream, h.glimpsed.later _⟩

theorem Standing.setLoc (h : Standing host storage names passed entries l s) (l' : Local) :
    Standing host storage names passed entries l' { s with loc := l' } :=
  ⟨h.present, rfl, h.stream, h.glimpsed⟩

theorem answer_own {e : Call} {r : Reply e} (hr : role host e = .own)
    (h : Answer host storage e s r s') :
    r = (own e s.loc).1 ∧ s' = { s with loc := (own e s.loc).2 } := by
  cases h with
  | own _ => exact ⟨rfl, rfl⟩
  | read hr' => exact nomatch hr.symm.trans hr'
  | refused => exact nomatch hr
  | opened _ _ => exact nomatch hr

theorem answer_read {e : Call} {r : Reply e} {name : Bytes}
    (hr : role host e = .access name .shared) (h : Answer host storage e s r s') :
    r = (touch host e (storage s.world name) s.loc).1 ∧
      s' = { s with loc := (touch host e (storage s.world name) s.loc).2.2 } := by
  cases h with
  | own hr' => exact nomatch hr.symm.trans hr'
  | read hr' =>
    cases hr.symm.trans hr'
    exact ⟨rfl, rfl⟩
  | refused => exact nomatch hr
  | opened _ _ => exact nomatch hr

theorem own_endures {Q : α → Scene X → Prop} {e : Call} {f : Reply e → Prog α}
    (hr : role host e = .own) (hs : Standing host storage names passed entries l s)
    (h : ∀ s', Standing host storage names passed entries (own e l).2 s' → s.seen ⊆ s'.seen →
      Endures (Moves env storage) (Answer host storage) Q (f (own e l).1) s') :
    Endures (Moves env storage) (Answer host storage) Q (invoke e >>= f) s := by
  refine endures_call (I := fun t => Standing host storage names passed entries l t ∧
    s.seen ⊆ t.seen) ?_ ⟨hs, List.Subset.refl _⟩ ?_
  · rintro t t' hmoves ⟨ht, hseen⟩
    refine ⟨Standing.moves t t' hmoves ht, List.Subset.trans hseen ?_⟩
    cases hmoves
    exact List.subset_append_left ..
  · rintro t r t' ⟨ht, hseen⟩ hact
    obtain ⟨rfl, rfl⟩ := answer_own hr hact
    obtain rfl := ht.loc
    exact h _ (ht.setLoc _) hseen

theorem all_own_endures {Q : α → Scene X → Prop} {p : Prog α}
    (hp : p.All fun e => role host e = .own) {σ : Bytes → Node}
    (hs : Standing host storage names passed entries l s)
    (h : p.wp (semantics host).handle
      (fun a t => ∀ s', Standing host storage names passed entries t.2 s' → Q a s') (σ, l)) :
    Endures (Moves env storage) (Answer host storage) Q p s := by
  induction p generalizing l s with
  | ret a =>
    exact endures_ret (I := Standing host storage names passed entries l) Standing.moves hs
      ((Program.wp_ret ..).mp h)
  | stuck => trivial
  | call e k ih =>
    have hnext := Program.wp_of_call h (handle_idle (M := semantics host) (idle_own hp.1) σ l)
    exact own_endures hp.1 hs fun s' hs' _ => ih _ (hp.2 _) hs' hnext

/-- The `stat` of a name finds the file that is there at that moment. -/
theorem stat_endures {Q : α → Scene X → Prop} {name : Bytes} {f : Option Stat → Prog α}
    (hs : Standing host storage names passed entries l s) (hl : Scannable l)
    (h : ∀ s', Standing host storage names passed entries l.popStat s' → ∀ σ ∈ s'.seen,
      Endures (Moves env storage) (Answer host storage) Q
        (f ((σ name).current.map fun file => ⟨true, file.bytes.length, file.mode⟩)) s') :
    Endures (Moves env storage) (Answer host storage) Q
      (stat (joinPath host.root name) >>= f) s := by
  refine endures_call (I := Standing host storage names passed entries l) Standing.moves hs ?_
  intro s r s' hs hact
  have hrole : role host (.stat (joinPath host.root name)) = .access name .shared :=
    Sections.role_joinPath host name .shared
  obtain ⟨rfl, rfl⟩ := answer_read hrole hact
  obtain rfl := hs.loc
  have htouch : touch host (.stat (joinPath host.root name)) (storage s.world name) s.loc =
      ((storage s.world name).current.map fun file => ⟨true, file.bytes.length, file.mode⟩,
        storage s.world name, s.loc.popStat) := by
    simp only [Kernel.touch, statNode, head_mallocs hl.stats, if_true]
  rw [htouch]
  exact h _ (hs.setLoc _) _ hs.present

/-- The loop makes of the rest of the stream what it has made of the names before. -/
theorem listLoop_endures {Q : Option (List Dirent) → Scene X → Prop} (dir : Dir)
    {rest : List Bytes} {capacity : ℕ} {l₀ : Local} (hnames : ∀ n ∈ names, DirectoryName n)
    (hsplit : names = passed ++ rest) (hs : Standing host storage names passed entries l s)
    (hl : Scannable l) (hsent : l.sent = l₀.sent)
    (h : ∀ l' entries' s', Scannable l' → l'.sent = l₀.sent →
      Standing host storage names names entries' l' s' → Q (some entries') s') :
    Endures (Moves env storage) (Answer host storage) Q
      (listLoop host.root dir rest capacity entries) s := by
  induction rest generalizing passed entries capacity l s with
  | nil =>
    rw [List.append_nil] at hsplit
    subst hsplit
    refine own_endures rfl hs fun s' hs' _ => ?_
    exact endures_ret Standing.moves hs' fun s'' hs'' => h _ _ _ hl hsent hs''
  | cons name rest ih =>
    have hname : DirectoryName name := hnames name (hsplit ▸ List.mem_append_right _ (by simp))
    have hsplit' : names = (passed ++ [name]) ++ rest := by
      rw [hsplit, List.append_assoc]
      rfl
    have hskip : ∀ {l' s'}, Standing host storage names passed entries l' s' → Scannable l' →
        l'.sent = l₀.sent →
        (¬ ValidName host.root pathMax name ∨ ∃ σ ∈ s'.seen, (σ name).current = none) →
        Endures (Moves env storage) (Answer host storage) Q
          (listLoop host.root dir rest capacity entries) s' := by
      intro l' s' hs' hl' hsent' hout
      exact ih hsplit' ⟨hs'.present, hs'.loc, hs'.stream, hs'.glimpsed.skip hout⟩ hl' hsent'
    unfold listLoop
    by_cases hdots : name = dotName ∨ name = dotDotName
    · rw [if_pos hdots]
      refine hskip hs hl hsent (Or.inl fun hvalid => ?_)
      exact hdots.elim hvalid.not_dot hvalid.not_dotDot
    rw [if_neg hdots]
    obtain ⟨hdot, hdotDot⟩ := not_or.mp hdots
    have hlen : (joinPath host.root name).length = host.root.length + 1 + name.length := by
      simp only [joinPath, List.length_append, List.length_cons]
      omega
    dsimp only
    by_cases hlong : pathMax ≤ (joinPath host.root name).length
    · rw [if_pos hlong]
      refine hskip hs hl hsent (Or.inl fun hvalid => ?_)
      have hfits := hvalid.fits
      omega
    rw [if_neg hlong]
    have hvalid : ValidName host.root pathMax name :=
      ⟨hname.nonempty, hname.short, hname.no_nul, hname.no_slash, hdot, hdotDot, by omega⟩
    refine stat_endures hs hl fun s₁ hs₁ σ hσ => ?_
    cases hcur : (σ name).current with
    | none => exact hskip hs₁ hl.popStat hsent (Or.inr ⟨σ, hσ, hcur⟩)
    | some f =>
      have hcut : name.take nervfsMaxNameLen = name := List.take_of_length_le hname.short
      have hnext : ∀ {capacity' l' s'}, Standing host storage names passed entries l' s' →
          σ ∈ s'.seen → Scannable l' → l'.sent = l₀.sent →
          Endures (Moves env storage) (Answer host storage) Q
            (listLoop host.root dir rest capacity' (entries ++
              [{ name := name.take nervfsMaxNameLen
                 size := UInt64.ofNat f.bytes.length
                 mode := UInt32.ofNat (f.mode &&& 0o7777) }])) s' := by
        intro capacity' l' s' hs' hσ' hl' hsent'
        rw [hcut]
        refine ih hsplit' ⟨hs'.present, hs'.loc, hs'.stream, ?_⟩ hl' hsent'
        exact hs'.glimpsed.add hvalid rfl ⟨σ, hσ', f, hcur, rfl, rfl⟩
      change Endures _ _ Q (if entries.length = capacity then _ else _) s₁
      by_cases hfull : entries.length = capacity
      · rw [if_pos hfull]
        refine own_endures rfl hs₁ fun s₂ hs₂ hseen => ?_
        change Endures _ _ Q (if l.popStat.outcomes.mallocs.headD true = true then _ else _) s₂
        rw [if_pos (head_mallocs hl.popStat.steady.mallocs)]
        exact hnext hs₂ (hseen hσ) hl.popStat.popMalloc hsent
      · rw [if_neg hfull]
        exact hnext hs₁ hσ hl.popStat hsent

/-- The scene at the beginning of a listing. -/
def begin (storage : X → Bytes → Node) (x : X) (l : Local) : Scene X :=
  { world := x
    loc := l
    seen := [storage x] }

/-- The response to a listing: a refusal, or the entries that it has glimpsed. -/
inductive Lists (host : Host) (l : Local) (s : Scene X) : Prop
  | refused (hsent : s.loc.sent = l.sent ++ errorFrame errInternal msgListFailed)
  | listed (us : UInt64) (entries : List Dirent)
    (hsent : s.loc.sent = l.sent ++ frame opRespListData us (listBody entries))
    (hglimpsed : Glimpsed host.root s.seen s.stream entries) (hnodup : s.stream.Nodup)

theorem fileopsListDir_endures {Q : Option (List Dirent) → Scene X → Prop} {l₀ : Local}
    (hs : Standing host storage [] [] [] l s) (hl : Scannable l) (hsent : l.sent = l₀.sent)
    (hrefused : ∀ s', Standing host storage [] [] [] l s' → Q none s')
    (h : ∀ names entries l' s', names.Nodup → (∀ n ∈ names, DirectoryName n) → Scannable l' →
      l'.sent = l₀.sent → Standing host storage names names entries l' s' →
      Q (some entries) s') :
    Endures (Moves env storage) (Answer host storage) Q (fileopsListDir host.root) s := by
  unfold fileopsListDir
  refine endures_call (I := Standing host storage [] [] [] l) Standing.moves hs ?_
  intro s r s' hs hact
  cases hact with
  | own hr => exact nomatch hr
  | read hr => exact nomatch hr
  | refused => exact endures_ret Standing.moves hs hrefused
  | @opened _ dir names hnodup hnames =>
    have hs' : Standing host storage names [] [] l { s with stream := names } :=
      ⟨hs.present, hs.loc, rfl, hs.glimpsed⟩
    refine own_endures rfl hs' fun s'' hs'' _ => ?_
    change Endures _ _ Q (if l.outcomes.mallocs.headD true = true then _ else _) s''
    rw [if_pos (head_mallocs hl.steady.mallocs)]
    exact listLoop_endures dir hnames rfl hs'' hl.popMalloc hsent
      fun l' entries' s' hl' hsent' hstanding => h names entries' l' s' hnodup hnames hl' hsent'
        hstanding

theorem entry_short (h : Glimpsed host.root s.seen passed entries) :
    ∀ e ∈ entries, e.name.length ≤ nervfsMaxNameLen :=
  fun e he => (h.addressable e he).short

/-- The listing answers with what it has glimpsed. A listing too large for its length field
brings the handler down before it answers. -/
theorem handleList_endures {x : X} (clientFd : ℕ) (hl : Scannable l) :
    Endures (Moves env storage) (Answer host storage) (fun _ s => Lists host l s)
      (handleList host.root clientFd) (begin storage x l) := by
  have hstart : Standing host storage [] [] [] l (begin storage x l) :=
    ⟨List.mem_singleton_self _, rfl, rfl, ⟨List.Sublist.refl _, nofun, nofun, nofun⟩⟩
  have hclock : ∀ {l : Local}, Scannable l → Scannable l.popClock := fun hl =>
    ⟨⟨hl.steady.delivers, hl.steady.mallocs⟩, hl.stats⟩
  rw [handleList_eq]
  refine own_endures rfl hstart fun s₁ hs₁ _ => endures_bind ?_
  refine fileopsListDir_endures hs₁ (hclock hl) rfl ?_ ?_
  · intro s₂ hs₂
    refine own_endures rfl hs₂ fun s₃ hs₃ _ => ?_
    have hl₃ : Scannable l.popClock.popClock := hclock (hclock hl)
    refine all_own_endures (σ := fun _ => {}) (Sections.sendError_own host clientFd _ _ (by decide))
      hs₃ ?_
    refine sendError_wp errInternal msgListFailed (by decide) hl₃.steady.delivers ?_ ?_
    · exact fun hnone => nomatch (head_mallocs hl₃.steady.mallocs).symm.trans hnone
    · intro l' hsent s' hs'
      refine Lists.refused ?_
      rw [hs'.loc, hsent]
      rfl
  · intro names entries l₂ s₂ hnodup hnames hl₂ hsent₂ hs₂
    refine own_endures rfl hs₂ fun s₃ hs₃ _ => ?_
    dsimp only
    have hshort := entry_short hs₃.glimpsed
    by_cases htotal : (listBody entries).length < 2 ^ 32
    · have henc : Encodable entries := ⟨hshort, htotal⟩
      refine all_own_endures (σ := fun _ => {}) (sendList_own host clientFd _ henc) hs₃ ?_
      refine sendList_wp _ (hclock hl₂).steady henc fun l' hsent s' hs' => ?_
      have hout := hsent.trans (congrArg (· ++ _) hsent₂)
      exact Lists.listed _ entries ((congrArg Local.sent hs'.loc).trans hout)
        (hs'.stream ▸ hs'.glimpsed) (hs'.stream ▸ hnodup)
    · rw [sendList_stuck clientFd _ hshort (not_lt.mp htotal)]
      refine own_endures rfl hs₃ fun s₄ hs₄ _ => ?_
      change Endures _ _ _ (if (!l₂.popClock.outcomes.mallocs.headD true) = true then _ else _) s₄
      rw [head_mallocs (hclock hl₂).steady.mallocs]
      trivial

end Scenes

section Pool
variable {W : Type} [DecidableEq W] {host : Host} {requests : List Request} {σ₀ : Bytes → Node}

/-- The workers of the process, as the others of a listing. -/
def PoolMoves (host : Host) (p p' : Pool W (Fin requests.length)) : Prop :=
  ∃ a, PoolStep host p a p'

def poolStorage (p : Pool W (Fin requests.length)) : Bytes → Node := p.sys.storage

/-- A listing that runs to its end in the middle of other requests. -/
def ListedAmong (host : Host) (clientFd : ℕ) (p : Pool W (Fin requests.length)) (l : Local)
    (s : Scene (Pool W (Fin requests.length))) : Prop :=
  ∃ ls, Run (Weave (Moves (PoolMoves host) poolStorage) (Answer host poolStorage))
    (handleList host.root clientFd, begin poolStorage p l) ls (.ret (), s)

/-- Every directory that a listing sees is one of a reachable state. -/
theorem seen_reachable {clientFd : ℕ} {l : Local} {p : Pool W (Fin requests.length)}
    {ks : List (PoolLabel W)} (h : Run (PoolStep host) (openPool W host requests σ₀) ks p)
    {s : Scene (Pool W (Fin requests.length))} (hlisted : ListedAmong host clientFd p l s) :
    ∀ σ ∈ s.seen, ∃ ks p', Run (PoolStep host) (openPool W host requests σ₀) ks p' ∧
      σ = p'.sys.storage := by
  obtain ⟨ls, hrun⟩ := hlisted
  refine (hrun.invariant (I := fun x =>
    (∃ ks, Run (PoolStep host) (openPool W host requests σ₀) ks x.2.world) ∧
      ∀ σ ∈ x.2.seen, ∃ ks p', Run (PoolStep host) (openPool W host requests σ₀) ks p' ∧
        σ = p'.sys.storage) ⟨⟨ks, h⟩, fun σ hσ => ⟨ks, p, h, List.mem_singleton.mp hσ⟩⟩ ?_).2
  rintro x a y ⟨⟨ks, hreach⟩, hseen⟩ hstep
  cases hstep with
  | others hmoves =>
    cases hmoves with
    | @step p' hmove =>
      obtain ⟨b, hb⟩ := hmove
      refine ⟨⟨_, hreach.snoc hb⟩, fun σ hσ => ?_⟩
      rcases List.mem_append.mp hσ with hσ | hσ
      · exact hseen σ hσ
      · exact ⟨_, _, hreach.snoc hb, List.mem_singleton.mp hσ⟩
  | call hact => cases hact <;> exact ⟨⟨ks, hreach⟩, hseen⟩

/-- An entry as the requests may have left it. -/
structure Plausible (host : Host) (requests : List Request) (σ₀ : Bytes → Node) (e : Dirent)
    (c : Bytes) (m : ℕ) : Prop where
  size : e.size = UInt64.ofNat c.length
  mode : e.mode = UInt32.ofNat (m &&& 0o7777)
  begun : Begun requests.get σ₀ e.name c
  moded : Moded host requests.get σ₀ e.name m
  whole : (∀ r ∈ requests, Unhindered r.outcomes) → OneBody requests.get σ₀ e.name c ∨ c = []

/-- A listing in the middle of other requests answers with files that were there at some
moment since it began, each once and in the order of its stream; the files that were there
all the time are among them, as far as the stream delivers their names. Their sizes are
those of contents that the requests have made. -/
theorem listing_glimpses (host : Host) (requests : List Request) (σ₀ : Bytes → Node)
    (hok : ∀ r ∈ requests, r.Complete ∧ r.NamesFile) {ks : List (PoolLabel W)}
    {p : Pool W (Fin requests.length)}
    (h : Run (PoolStep host) (openPool W host requests σ₀) ks p) {clientFd : ℕ} {l : Local}
    (hl : Scannable l) {s : Scene (Pool W (Fin requests.length))}
    (hlisted : ListedAmong host clientFd p l s) :
    s.loc.sent = l.sent ++ errorFrame errInternal msgListFailed ∨
      ∃ us entries, s.loc.sent = l.sent ++ frame opRespListData us (listBody entries) ∧
        Glimpsed host.root s.seen s.stream entries ∧ (entries.map Dirent.name).Nodup ∧
        ∀ e ∈ entries, ∃ c mode, Plausible host requests σ₀ e c mode := by
  obtain ⟨ls, hrun⟩ := id hlisted
  have hlists : Lists host l s :=
    (handleList_endures clientFd hl).returned hrun
  cases hlists with
  | refused hsent => exact Or.inl hsent
  | listed us entries hsent hglimpsed hnodup =>
    refine Or.inr ⟨us, entries, hsent, hglimpsed, hnodup.sublist hglimpsed.inOrder, ?_⟩
    intro e he
    obtain ⟨σ, hσ, f, hf, hsize, hmode⟩ := hglimpsed.shown e he
    obtain ⟨ks', p', hreach, rfl⟩ := seen_reachable h hlisted σ hσ
    obtain ⟨hbegun, hmoded, hwhole⟩ := pool_contents host requests σ₀ hok hreach e.name f hf
    exact ⟨f.bytes, f.mode, hsize, hmode, hbegun, hmoded,
      fun hr => (hwhole hr).imp_right And.left⟩

end Pool

/-- The others take some steps. -/
def drift (s : Scene (Pool Bool (Fin sampleRequests.length))) :
    List (PoolLabel Bool) → Option (Scene (Pool Bool (Fin sampleRequests.length)))
  | [] => some s
  | a :: as =>
    if a.Allocates then
      (poolNext sampleHost s.world a).bind fun p =>
        drift { s with world := p, seen := s.seen ++ [p.sys.storage] } as
    else none

theorem drift_moves {s t : Scene (Pool Bool (Fin sampleRequests.length))}
    {as : List (PoolLabel Bool)} (h : drift s as = some t) :
    Relation.ReflTransGen (Moves (PoolMoves sampleHost) poolStorage) s t := by
  induction as generalizing s with
  | nil =>
    cases h
    exact .refl
  | cons a as ih =>
    obtain ⟨halloc, h⟩ := Option.ite_none_right_eq_some.mp h
    obtain ⟨p, hp, hrest⟩ := Option.bind_eq_some_iff.mp h
    exact .head (.step ⟨a, hp, halloc⟩) (ih hrest)

/-- The upload of the samples runs on until it has opened the file when the listing makes
its `stat`; everything else is answered at once. -/
def meanwhile : (e : Call) → Scene (Pool Bool (Fin sampleRequests.length)) →
    Option (Reply e × Scene (Pool Bool (Fin sampleRequests.length)))
  | .opendir, s => some (some (⟨0⟩, [[0x61]]), { s with stream := [[0x61]] })
  | e, s =>
    match role sampleHost e with
    | .own => some ((own e s.loc).1, { s with loc := (own e s.loc).2 })
    | .access name .shared => (drift s hollowed).map fun m =>
      ((touch sampleHost e (m.world.sys.storage name) m.loc).1,
        { m with loc := (touch sampleHost e (m.world.sys.storage name) m.loc).2.2 })
    | _ => none

theorem meanwhile_answers (e : Call) (s : Scene (Pool Bool (Fin sampleRequests.length)))
    (r : Reply e) (t : Scene (Pool Bool (Fin sampleRequests.length)))
    (h : meanwhile e s = some (r, t)) :
    ∃ m, Relation.ReflTransGen (Moves (PoolMoves sampleHost) poolStorage) s m ∧
      Answer sampleHost poolStorage e m r t := by
  unfold meanwhile at h
  split at h
  · cases h
    refine ⟨s, .refl, .opened (by decide) fun n hn => ?_⟩
    rw [List.mem_singleton.mp hn]
    constructor <;> decide
  · split at h
    · next hr =>
      cases h
      exact ⟨s, .refl, .own hr⟩
    · next name hr =>
      obtain ⟨m, hm, hrest⟩ := Option.map_eq_some_iff.mp h
      cases hrest
      exact ⟨m, drift_moves hm, .read hr⟩
    · cases h

theorem meanwhile_returns :
    ((handleList sampleHost.root 7).run meanwhile
      (begin poolStorage (openPool Bool sampleHost sampleRequests sampleFile) {})).map
        (fun q => q.2.loc.sent) =
      some (frame opRespListData 0 (listBody [⟨[0x61], 0, 0o644⟩])) := by
  decide +kernel

theorem listing_glimpses_meanwhile :
    ∃ s : Scene (Pool Bool (Fin sampleRequests.length)),
      s.loc.sent = frame opRespListData 0 (listBody [⟨[0x61], 0, 0o644⟩]) ∧
      (s.loc.sent = errorFrame errInternal msgListFailed ∨
        ∃ us entries, s.loc.sent = frame opRespListData us (listBody entries) ∧
          Glimpsed sampleHost.root s.seen s.stream entries ∧
          ∀ e ∈ entries, ∃ c mode, Plausible sampleHost sampleRequests sampleFile e c mode) := by
  obtain ⟨⟨_, s⟩, hrun, hsent⟩ := Option.map_eq_some_iff.mp meanwhile_returns
  have hok : ∀ r ∈ sampleRequests, r.Complete ∧ r.NamesFile := by
    unfold Request.Complete Request.NamesFile
    decide
  have hscannable : Scannable {} := ⟨⟨nofun, nofun⟩, nofun⟩
  have hlists := listing_glimpses sampleHost sampleRequests sampleFile hok .nil hscannable
    (weave_of_run meanwhile_answers hrun)
  refine ⟨s, hsent, hlists.imp id ?_⟩
  rintro ⟨us, entries, hout, hglimpsed, -, hplausible⟩
  exact ⟨us, entries, hout, hglimpsed, hplausible⟩

end NervFS.ConcurrentListings
