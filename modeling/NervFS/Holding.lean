import NervFS.Workers
import NervFS.Sections

/-!
The lock table of a process holds a name for a handler exactly while the handler is in
the section of that name. Every process has its own table, so two handlers exclude
each other only when the same process runs them.
-/
namespace NervFS.Holding

open Programs KeyedStore KeyedStore.Semantics Transitions Calls Protocol FileOps Handlers
open Kernel Workers Sections

/-- The phase that the calls of a request have led to. -/
def phaseOf (host : Host) (log : List Call) : Phase Bytes :=
  log.foldl (fun c e => (semantics host).phaseAfter c e) .before

theorem phaseOf_snoc (host : Host) (log : List Call) (e : Call) :
    phaseOf host (log ++ [e]) = (semantics host).phaseAfter (phaseOf host log) e := by
  simp [phaseOf]

@[simp] theorem modeOf_kindOf (m : Mode) : modeOf (kindOf m) = m := by
  cases m <;> rfl

@[simp] theorem kindOf_modeOf (kind : LockKind) : kindOf (modeOf kind) = kind := by
  cases kind <;> rfl

theorem request_sectioned (host : Host) (r : Request) (hcomplete : r.Complete)
    (hnames : r.NamesFile) : (semantics host).Sectioned .before (r.prog host) := by
  unfold Request.prog dispatchRequestTimed
  refine Sectioned.own rfl fun _ _ => ?_
  rcases hnames with h | h | h | h
  · rw [if_pos h]
    exact handleUploadTimed_sectioned hcomplete r.netStart
  · rw [if_neg (by rw [h]; decide), if_pos h]
    exact handleDownload_sectioned hcomplete
  · rw [if_neg (by rw [h]; decide), if_neg (by rw [h]; decide), if_neg (by rw [h]; decide),
      if_pos h]
    exact handleDelete_sectioned hcomplete
  · rw [if_neg (by rw [h]; decide), if_neg (by rw [h]; decide), if_neg (by rw [h]; decide),
      if_neg (by rw [h]; decide), if_pos h]
    exact handleChmod_sectioned hcomplete

section Invariant
variable {P T : Type} [Fintype T]

structure Locked (host : Host) (proc : T → P) (s : Workers.State P T) : Prop where
  locks : ∀ p, NameLocks.Inv (s.locks p)
  phase : ∀ p t name kind, (s.locks p).held t name = some kind ↔
    proc t = p ∧ phaseOf host (s.service t).log = .inside name (modeOf kind)
  short : ∀ p t name kind, (s.locks p).held t name = some kind →
    name.length ≤ nervfsMaxNameLen
  sectioned : ∀ t, (semantics host).Sectioned (phaseOf host (s.service t).log)
    (s.service t).prog
  waiting : ∀ p t kind name entry, NameLocks.Waiting (s.locks p) t kind name entry →
    proc t = p ∧ ∃ e k, (s.service t).prog = .call e k ∧
      role host e = .acquire name (modeOf kind)

theorem start_locked (host : Host) (proc : T → P) {request : T → Request}
    (hok : ∀ t, (request t).Complete ∧ (request t).NamesFile) (σ₀ : Bytes → Node) :
    Locked host proc (start host request σ₀) where
  locks _ := NameLocks.initial_inv
  phase _ _ _ _ := iff_of_false (fun h => nomatch h) (fun h => nomatch h.2)
  short _ _ _ _ h := nomatch h
  sectioned t := request_sectioned host _ (hok t).1 (hok t).2
  waiting _ _ _ _ _ h := by rcases h with h | h <;> cases h

variable {host : Host} {proc : T → P} {s s' : Workers.State P T} {t : T} {malloc : Option ℕ}
variable {e : Call} {k : Reply e → Prog Unit} {r : Reply e} {l : Local}

/-- Two handlers of one process are in sections of one name only to read. -/
theorem Locked.exclusion (hL : Locked host proc s) {u : T} {name : Bytes} {m m' : Mode}
    (hne : t ≠ u) (hproc : proc t = proc u)
    (ht : phaseOf host (s.service t).log = .inside name m)
    (hu : phaseOf host (s.service u).log = .inside name m') : m = .shared ∧ m' = .shared := by
  have hheld : (s.locks (proc u)).held t name = some (kindOf m) :=
    (hL.phase ..).mpr ⟨hproc, by rw [modeOf_kindOf]; exact ht⟩
  have hheld' : (s.locks (proc u)).held u name = some (kindOf m') :=
    (hL.phase ..).mpr ⟨rfl, by rw [modeOf_kindOf]; exact hu⟩
  have halone := (hL.locks (proc u)).consistent.alone
  cases m with
  | exclusive => exact absurd (halone t u name _ hheld hheld').symm hne
  | shared =>
    cases m' with
    | exclusive => exact absurd (halone u t name _ hheld' hheld) hne
    | shared => exact ⟨rfl, rfl⟩

variable [DecidableEq P] [DecidableEq T] [Fintype P]

/-- What an answered call leaves to show about the table of its process. -/
theorem Locked.advance (hL : Locked host proc s) (ha : Answers host proc s t malloc e k r l s')
    (hlocks : NameLocks.Inv (s'.locks (proc t)))
    (hother : ∀ p, p ≠ proc t → s'.locks p = s.locks p)
    (hself : ∀ name kind, (s'.locks (proc t)).held t name = some kind ↔
      (semantics host).phaseAfter (phaseOf host (s.service t).log) e = .inside name (modeOf kind))
    (hheld : ∀ u, u ≠ t → (s'.locks (proc t)).held u = (s.locks (proc t)).held u)
    (hshort : ∀ name kind, (s'.locks (proc t)).held t name = some kind →
      name.length ≤ nervfsMaxNameLen)
    (hwaiting : ∀ u kind name entry, NameLocks.Waiting (s'.locks (proc t)) u kind name entry →
      u ≠ t ∧ ∃ entry', NameLocks.Waiting (s.locks (proc t)) u kind name entry') :
    Locked host proc s' := by
  have hu : ∀ u, u ≠ t → s'.service u = s.service u := fun u hu => by
    rw [ha.service, Function.update_of_ne hu]
  have ht : s'.service t = ⟨k r, l, (s.service t).log ++ [e]⟩ := by
    rw [ha.service, Function.update_self]
  refine ⟨fun p => ?_, fun p u name kind => ?_, fun p u name kind h => ?_, fun u => ?_, ?_⟩
  · by_cases hp : p = proc t
    · exact hp ▸ hlocks
    · rw [hother p hp]
      exact hL.locks p
  · by_cases hp : p = proc t
    · subst hp
      by_cases hut : u = t
      · subst hut
        rw [hself, ht, phaseOf_snoc]
        exact ⟨fun h => ⟨rfl, h⟩, And.right⟩
      · rw [hheld u hut, hu u hut]
        exact hL.phase (proc t) u name kind
    · rw [hother p hp, hL.phase]
      by_cases hut : u = t
      · subst hut
        exact iff_of_false (fun h => hp h.1.symm) (fun h => hp h.1.symm)
      · rw [hu u hut]
  · by_cases hp : p = proc t
    · subst hp
      by_cases hut : u = t
      · subst hut
        exact hshort name kind h
      · rw [hheld u hut] at h
        exact hL.short _ u name kind h
    · rw [hother p hp] at h
      exact hL.short p u name kind h
  · by_cases hut : u = t
    · subst hut
      rw [ht, phaseOf_snoc]
      exact sectioned_handled (ha.prog ▸ hL.sectioned u) ha.handled
    · rw [hu u hut]
      exact hL.sectioned u
  · intro p u kind name entry hw
    by_cases hp : p = proc t
    · subst hp
      obtain ⟨hut, entry', hw'⟩ := hwaiting u kind name entry hw
      rw [hu u hut]
      exact hL.waiting _ u kind name entry' hw'
    · rw [hother p hp] at hw
      obtain ⟨hproc, hcall⟩ := hL.waiting p u kind name entry hw
      have hut : u ≠ t := by
        rintro rfl
        exact hp hproc.symm
      rw [hu u hut]
      exact ⟨hproc, hcall⟩

omit [DecidableEq P] [DecidableEq T] [Fintype P] in
/-- A request that makes another call than an acquisition does not wait for a name. -/
theorem Locked.not_waiting (hL : Locked host proc s) (hp : (s.service t).prog = .call e k)
    (hrole : ∀ name m, role host e ≠ .acquire name m) (p : P) (kind : LockKind) (name : Bytes)
    (entry : Option ℕ) : ¬ NameLocks.Waiting (s.locks p) t kind name entry := by
  intro hw
  obtain ⟨-, e', k', hp', hr⟩ := hL.waiting p t kind name entry hw
  rw [hp] at hp'
  cases hp'
  exact hrole name _ hr

omit [DecidableEq P] [DecidableEq T] [Fintype P] in
theorem Locked.held_iff (hL : Locked host proc s) (t : T) (name : Bytes) (kind : LockKind) :
    (s.locks (proc t)).held t name = some kind ↔
      phaseOf host (s.service t).log = .inside name (modeOf kind) :=
  (hL.phase ..).trans ⟨And.right, fun h => ⟨rfl, h⟩⟩

theorem Locked.other (hL : Locked host proc s) (ha : Answers host proc s t malloc e k r l s')
    (hrole : ∀ name m, role host e ≠ .acquire name m)
    (hphase : (semantics host).phaseAfter (phaseOf host (s.service t).log) e =
      phaseOf host (s.service t).log) (hlocks : s'.locks = s.locks) : Locked host proc s' := by
  refine hL.advance ha (hlocks ▸ hL.locks _) (fun p _ => by rw [hlocks]) (fun name kind => ?_)
    (fun u _ => by rw [hlocks]) (fun name kind => ?_) fun u kind name entry hw => ?_
  · rw [hlocks, hphase, hL.held_iff]
  · rw [hlocks]
    exact hL.short _ t name kind
  · rw [hlocks] at hw
    refine ⟨?_, entry, hw⟩
    rintro rfl
    exact hL.not_waiting ha.prog hrole _ kind name entry hw

theorem Locked.release (hL : Locked host proc s) (ha : Answers host proc s t malloc e k r l s')
    {name : Bytes} {m : Mode} (hr : role host e = .release name m) (halloc : malloc ≠ none) :
    Locked host proc s' := by
  have hmoves := ha.locks
  simp only [MovesLocks, hr] at hmoves
  obtain ⟨locks, hnext, hlocks⟩ := hmoves
  obtain ⟨hph, -⟩ := sectioned_release (ha.prog ▸ hL.sectioned t) hr (s.service t).loc
  have hheld : (s.locks (proc t)).held t name = some (kindOf m) := by
    rw [hL.held_iff, modeOf_kindOf]
    exact hph
  have hstep : NameLocks.Step (s.locks (proc t)) (.release t (kindOf m) name malloc) locks :=
    ⟨hnext, hheld, hL.short _ t name _ hheld, halloc⟩
  obtain ⟨hheld', hphase'⟩ := NameLocks.step_release hstep
  have hself : s'.locks (proc t) = locks := by rw [hlocks, Function.update_self]
  have hafter : (semantics host).phaseAfter (phaseOf host (s.service t).log) e = .after := by
    rw [hph]
    exact phaseAfter_release hr
  have hnone : ∀ n kind, locks.held t n ≠ some kind := by
    intro n kind
    rw [hheld', NameLocks.setHeld_apply]
    split
    · intro heq
      cases heq
    · next hn =>
      rw [ne_eq, hL.held_iff, hph]
      rintro h
      cases h
      exact hn ⟨rfl, rfl⟩
  refine hL.advance ha ?_ (fun p hp => by rw [hlocks, Function.update_of_ne hp])
    (fun n kind => ?_) (fun u hu => ?_) (fun n kind hh => ?_) fun u kind n entry hw => ?_
  · rw [hself]
    exact (hL.locks _).step hstep
  · rw [hself, hafter]
    exact iff_of_false (hnone n kind) (by intro heq; cases heq)
  · funext n
    rw [hself, hheld', NameLocks.setHeld_apply, if_neg fun h => hu h.1]
  · rw [hself] at hh
    exact absurd hh (hnone n kind)
  · rw [hself] at hw
    have hw' : NameLocks.Waiting (s.locks (proc t)) u kind n entry := by
      unfold NameLocks.Waiting at hw ⊢
      rw [hphase'] at hw
      exact NameLocks.broadcast_waiting hw
    refine ⟨?_, entry, hw'⟩
    rintro rfl
    exact hL.not_waiting ha.prog (by rw [hr]; intro _ _ heq; cases heq) _ kind n entry hw'

omit [DecidableEq P] [Fintype P] in
/-- A request that enters or continues an acquisition is in a matched pair. -/
theorem Locked.tests (hL : Locked host proc s) (hp : (s.service t).prog = .call e k)
    {name : Bytes} {m : Mode} (hr : role host e = .acquire name m) (halloc : malloc ≠ none)
    {locks : NameLocks.State T}
    (hnext : NameLocks.next (s.locks (proc t))
      (acquireLabel (s.locks (proc t)) t (kindOf m) name malloc) = some locks) :
    phaseOf host (s.service t).log = .before ∧ name.length ≤ nervfsMaxNameLen ∧
    NameLocks.Step (s.locks (proc t))
      (acquireLabel (s.locks (proc t)) t (kindOf m) name malloc) locks ∧
    NameLocks.Tests (s.locks (proc t)) (acquireLabel (s.locks (proc t)) t (kindOf m) name malloc)
      t (kindOf m) name := by
  obtain ⟨hph, hvalid, -⟩ := sectioned_acquire (hp ▸ hL.sectioned t) hr (s.service t).loc
  have hnone : (s.locks (proc t)).held t name = none := by
    cases hh : (s.locks (proc t)).held t name with
    | none => rfl
    | some kind =>
      rw [hL.held_iff, hph] at hh
      cases hh
  refine ⟨hph, hvalid, ?_⟩
  unfold acquireLabel at hnext ⊢
  cases hphase : (s.locks (proc t)).phase t with
  | woken kind n entry =>
    rw [hphase] at hnext
    obtain ⟨-, e', k', hp', hr'⟩ := hL.waiting _ t kind n entry (Or.inr hphase)
    rw [hp] at hp'
    cases hp'
    rw [hr] at hr'
    cases hr'
    rw [kindOf_modeOf]
    exact ⟨⟨hnext, trivial⟩, Or.inr ⟨rfl, entry, hphase⟩⟩
  | outside =>
    rw [hphase] at hnext
    exact ⟨⟨hnext, hnone, hvalid, halloc⟩, Or.inl ⟨malloc, rfl⟩⟩
  | asleep kind n entry =>
    rw [hphase] at hnext
    exact ⟨⟨hnext, hnone, hvalid, halloc⟩, Or.inl ⟨malloc, rfl⟩⟩

/-- A request that gets its name lock finds nobody of its process in a conflicting section. -/
theorem Locked.acquire (hL : Locked host proc s) (ha : Answers host proc s t malloc e k r l s')
    {name : Bytes} {m : Mode} (hr : role host e = .acquire name m) (halloc : malloc ≠ none) :
    Locked host proc s' ∧ ∀ u m', proc u = proc t →
      phaseOf host (s.service u).log = .inside name m' → m = .shared ∧ m' = .shared := by
  have hmoves := ha.locks
  simp only [MovesLocks, hr] at hmoves
  obtain ⟨locks, hnext, hout, hlocks⟩ := hmoves
  obtain ⟨hph, hname, hstep, htests⟩ := hL.tests ha.prog hr halloc hnext
  have hself : s'.locks (proc t) = locks := by rw [hlocks, Function.update_self]
  have hinside : (semantics host).phaseAfter (phaseOf host (s.service t).log) e =
      .inside name m := by
    rw [hph]
    exact phaseAfter_acquire hr
  rcases NameLocks.step_test (hL.locks _) hstep htests with
    ⟨-, -, entry, hphase⟩ | ⟨hfree, hheld, hphase⟩
  · rw [hphase, Function.update_self] at hout
    cases hout
  · have hheldt : ∀ n kind, locks.held t n = some kind ↔ n = name ∧ kind = kindOf m := by
      intro n kind
      rw [hheld, NameLocks.setHeld_apply]
      by_cases hn : n = name
      · rw [if_pos ⟨rfl, hn⟩]
        exact ⟨fun h => ⟨hn, (Option.some.inj h).symm⟩, fun h => h.2 ▸ rfl⟩
      · rw [if_neg fun h => hn h.2, hL.held_iff, hph]
        exact iff_of_false (by intro hnone; cases hnone) fun h => hn h.1
    constructor
    · refine hL.advance ha ?_ (fun p hp => by rw [hlocks, Function.update_of_ne hp])
        (fun n kind => ?_) (fun u hu => ?_) (fun n kind hh => ?_) fun u kind n entry hw => ?_
      · rw [hself]
        exact (hL.locks _).step hstep
      · rw [hself, hinside, hheldt]
        cases m <;> cases kind <;> simp [kindOf, modeOf, eq_comm]
      · funext n
        rw [hself, hheld, NameLocks.setHeld_apply, if_neg fun h => hu h.1]
      · rw [hself, hheldt] at hh
        exact hh.1 ▸ hname
      · rw [hself] at hw
        unfold NameLocks.Waiting at hw
        rw [hphase] at hw
        by_cases hu : u = t
        · subst hu
          simp at hw
        · rw [Function.update_of_ne hu] at hw
          exact ⟨hu, entry, hw⟩
    · intro u m' hproc hu
      have hu' := hfree u (kindOf m') ((hL.phase ..).mpr ⟨hproc, by rw [modeOf_kindOf]; exact hu⟩)
      cases m <;> cases m' <;> simp_all [kindOf]

omit [Fintype P] in
/-- Only the waiting changes: a request went to sleep or was woken. -/
theorem Locked.waits (hL : Locked host proc s) {p : P} {locks : NameLocks.State T}
    (hinv : NameLocks.Inv locks) (hheld : locks.held = (s.locks p).held)
    {phase : NameLocks.Phase} (hphase : locks.phase = Function.update (s.locks p).phase t phase)
    (ht : ∀ kind name entry, phase = .asleep kind name entry ∨ phase = .woken kind name entry →
      proc t = p ∧ ∃ e k, (s.service t).prog = .call e k ∧
        role host e = .acquire name (modeOf kind)) :
    Locked host proc (s.setLocks p locks) := by
  have hself : (s.setLocks p locks).locks p = locks := Function.update_self ..
  have hother : ∀ q, q ≠ p → (s.setLocks p locks).locks q = s.locks q :=
    fun q hq => Function.update_of_ne hq ..
  have hsame : ∀ q, ((s.setLocks p locks).locks q).held = (s.locks q).held := by
    intro q
    by_cases hq : q = p
    · rw [hq, hself, hheld]
    · rw [hother q hq]
  refine ⟨fun q => ?_, fun q u n kind => ?_, fun q u n kind hu => ?_, hL.sectioned, ?_⟩
  · by_cases hq : q = p
    · rw [hq, hself]
      exact hinv
    · rw [hother q hq]
      exact hL.locks q
  · rw [hsame]
    exact hL.phase q u n kind
  · rw [hsame] at hu
    exact hL.short q u n kind hu
  · intro q u kind n entry hw
    by_cases hq : q = p
    · subst hq
      rw [hself] at hw
      unfold NameLocks.Waiting at hw
      rw [hphase] at hw
      by_cases hu : u = t
      · subst hu
        rw [Function.update_self] at hw
        exact ht kind n entry hw
      · rw [Function.update_of_ne hu] at hw
        exact hL.waiting q u kind n entry hw
    · rw [hother q hq] at hw
      exact hL.waiting q u kind n entry hw

/-- A handler that gets its name lock finds no conflicting section in its process. -/
def Granted (host : Host) (proc : T → P) (s : Workers.State P T) (t : T) (e : Call) : Prop :=
  ∀ name m, role host e = .acquire name m → ∀ u m', proc u = proc t →
    phaseOf host (s.service u).log = .inside name m' → m = .shared ∧ m' = .shared

theorem Locked.answers (hL : Locked host proc s) (ha : Answers host proc s t malloc e k r l s')
    (halloc : malloc ≠ none) : Locked host proc s' ∧ Granted host proc s t e := by
  have hmoves := ha.locks
  cases hr : role host e with
  | own =>
    simp only [MovesLocks, hr] at hmoves
    have hnone : (∀ n m, role host e ≠ .acquire n m) ∧ ∀ n m, role host e ≠ .release n m := by
      simp [hr]
    exact ⟨hL.other ha hnone.1 (phaseAfter_same hnone.1 hnone.2) hmoves,
      fun n m h => absurd h (hnone.1 n m)⟩
  | access n m =>
    simp only [MovesLocks, hr] at hmoves
    have hnone : (∀ n m, role host e ≠ .acquire n m) ∧ ∀ n m, role host e ≠ .release n m := by
      simp [hr]
    exact ⟨hL.other ha hnone.1 (phaseAfter_same hnone.1 hnone.2) hmoves,
      fun n m h => absurd h (hnone.1 n m)⟩
  | release n m =>
    refine ⟨hL.release ha hr halloc, fun n m h => ?_⟩
    cases hr.symm.trans h
  | acquire n m =>
    obtain ⟨hL', hfree⟩ := hL.acquire ha hr halloc
    refine ⟨hL', fun n' m' h => ?_⟩
    rw [hr] at h
    cases h
    exact hfree
  | other =>
    exact absurd hr (sectioned_not_other (M := semantics host) (ha.prog ▸ hL.sectioned t))

/-- A step leaves the services as they are, or answers a call; the tables stay in order. -/
theorem Locked.step (hL : Locked host proc s) {a : Label T} (h : next host proc s a = some s')
    (halloc : a.Allocates) : Locked host proc s' ∧
      ((∃ p locks, s' = s.setLocks p locks) ∨ ∃ t malloc e k r l, a = .call t malloc ∧
        Answers host proc s t malloc e k r l s' ∧ Granted host proc s t e) := by
  rcases next_cases h with ⟨t, locks, rfl, hnext, rfl⟩ |
    ⟨t, malloc, e, k, name, m, locks, rfl, hp, hr, hnext, hout, rfl⟩ |
    ⟨t, malloc, e, k, r, l, rfl, ha⟩
  · have hstep : NameLocks.Step (s.locks (proc t)) (.wake t) locks := ⟨hnext, trivial⟩
    obtain ⟨hheld, kind, name, entry, hphase, hphase'⟩ := NameLocks.step_wake hstep
    refine ⟨hL.waits ((hL.locks _).step hstep) hheld hphase' ?_, Or.inl ⟨_, _, rfl⟩⟩
    rintro k n en (hw | hw) <;> cases hw
    exact hL.waiting _ t kind name entry (Or.inl hphase)
  · obtain ⟨-, -, hstep, htests⟩ := hL.tests hp hr halloc hnext
    rcases NameLocks.step_test (hL.locks _) hstep htests with
      ⟨-, hheld, entry, hphase⟩ | ⟨-, -, hphase⟩
    · refine ⟨hL.waits ((hL.locks _).step hstep) hheld hphase ?_, Or.inl ⟨_, _, rfl⟩⟩
      rintro kind n en (hw | hw) <;> cases hw
      exact ⟨rfl, e, k, hp, by rw [hr, modeOf_kindOf]⟩
    · rw [hphase, Function.update_self] at hout
      exact absurd rfl hout
  · obtain ⟨hL', hgranted⟩ := hL.answers ha halloc
    exact ⟨hL', Or.inr ⟨t, malloc, e, k, r, l, rfl, ha, hgranted⟩⟩

end Invariant

end NervFS.Holding
