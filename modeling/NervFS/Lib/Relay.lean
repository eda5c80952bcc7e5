import NervFS.Lib.Transitions
import Mathlib.Data.List.Nodup

/-!
A front with a backend behind it. The front answers some of its requests on its own and
passes the others on; the backend serves what was passed on in any order and at any time,
even after the front has settled the request without an answer, or never. Whatever the
order of the steps, the backend has made a run of its own in which every request occurs
once at most, and what a request was settled with comes from its own answer or from none.
-/
namespace Relay

open Transitions

variable {F X S Q A O ι : Type*}

structure Protocol (F X S Q A O : Type*) where
  /-- what the front does on its own -/
  aside : F → X → F → Prop
  /-- the requests that it passes on -/
  passes : F → Q → Prop
  serve : S → Q → A → S → Prop
  /-- what a request is settled with, given the answer of the backend if there is one -/
  reply : Q → Option A → O → Prop

structure Job (Q A : Type*) where
  request : Q
  answer : Option A := none
  settled : Bool := false

structure State (F S Q A ι : Type*) where
  front : F
  backend : S
  jobs : ι → Option (Job Q A) := fun _ => none

inductive Label (X Q O ι : Type*)
  | aside (x : X)
  | send (i : ι) (q : Q)
  | serve (i : ι)
  | settle (i : ι) (o : O)

/-- One step of the backend, for the request with the index. -/
def Serves (P : Protocol F X S Q A O) (b : S) (x : ι × Q × A) (b' : S) : Prop :=
  P.serve b x.2.1 x.2.2 b'

section Steps
variable [DecidableEq ι] {P : Protocol F X S Q A O}

def State.setJob (s : State F S Q A ι) (i : ι) (job : Job Q A) : State F S Q A ι :=
  { s with jobs := Function.update s.jobs i (some job) }

inductive Step (P : Protocol F X S Q A O) (s : State F S Q A ι) :
    Label X Q O ι → State F S Q A ι → Prop
  | aside {x : X} {f : F} (h : P.aside s.front x f) : Step P s (.aside x) { s with front := f }
  | send {i : ι} {q : Q} (hnew : s.jobs i = none) (h : P.passes s.front q) :
    Step P s (.send i q) (s.setJob i { request := q })
  | serve {i : ι} {job : Job Q A} {a : A} {b : S} (hjob : s.jobs i = some job)
    (hopen : job.answer = none) (h : P.serve s.backend job.request a b) :
    Step P s (.serve i) { s.setJob i { job with answer := some a } with backend := b }
  | settle {i : ι} {job : Job Q A} {o : O} (hjob : s.jobs i = some job)
    (hopen : job.settled = false) (h : P.reply job.request job.answer o) :
    Step P s (.settle i o) (s.setJob i { job with settled := true })

/-- What the backend has served so far, and what it has come to. -/
structure Account (P : Protocol F X S Q A O) (b₀ : S) (ls : List (Label X Q O ι))
    (served : List (ι × Q × A)) (s : State F S Q A ι) : Prop where
  run : Run (Serves P) b₀ served s.backend
  once : (served.map Prod.fst).Nodup
  sent : ∀ i job, s.jobs i = some job → .send i job.request ∈ ls
  passed : ∀ i q, .send i q ∈ ls → ∃ f, P.passes f q
  answered : ∀ i q a, (i, q, a) ∈ served ↔ ∃ closed, s.jobs i = some ⟨q, some a, closed⟩
  settled : ∀ i o, .settle i o ∈ ls → ∃ q, .send i q ∈ ls ∧
    (P.reply q none o ∨ ∃ a, (i, q, a) ∈ served ∧ P.reply q (some a) o)

section Account
variable {b₀ : S} {ls : List (Label X Q O ι)} {served : List (ι × Q × A)}
variable {s t : State F S Q A ι}

omit [DecidableEq ι] in
theorem account_nil (f : F) (b : S) :
    Account P b [] [] ({ front := f, backend := b } : State F S Q A ι) where
  run := .nil
  once := List.nodup_nil
  sent _ _ h := nomatch h
  passed _ _ h := nomatch h
  answered i q a := by
    constructor
    · exact nofun
    · rintro ⟨closed, h⟩
      cases h
  settled _ _ h := nomatch h

omit [DecidableEq ι] in
theorem Account.sent_of_served (h : Account P b₀ ls served s) {i : ι} {q : Q} {a : A}
    (hmem : (i, q, a) ∈ served) : .send i q ∈ ls := by
  obtain ⟨closed, hjob⟩ := (h.answered i q a).mp hmem
  exact h.sent i _ hjob

omit [DecidableEq ι] in
theorem Account.not_served (h : Account P b₀ ls served s) {i : ι}
    (hjob : ∀ job, s.jobs i = some job → job.answer = none) : i ∉ served.map Prod.fst := by
  intro hmem
  obtain ⟨⟨_, q, a⟩, hx, rfl⟩ := List.mem_map.mp hmem
  obtain ⟨closed, hsome⟩ := (h.answered _ q a).mp hx
  cases hjob _ hsome

omit [DecidableEq ι] in
theorem Account.settled_mono (h : Account P b₀ ls served s) (l : Label X Q O ι)
    (more : List (ι × Q × A)) {i : ι} {o : O} (hmem : .settle i o ∈ ls) :
    ∃ q, .send i q ∈ ls ++ [l] ∧
      (P.reply q none o ∨ ∃ a, (i, q, a) ∈ served ++ more ∧ P.reply q (some a) o) := by
  obtain ⟨q, hsent, hreply⟩ := h.settled i o hmem
  refine ⟨q, List.mem_append_left _ hsent, hreply.imp_right ?_⟩
  rintro ⟨a, ha, hreply⟩
  exact ⟨a, List.mem_append_left _ ha, hreply⟩

theorem setJob_jobs (s : State F S Q A ι) (i j : ι) (job : Job Q A) :
    (s.setJob i job).jobs j = if j = i then some job else s.jobs j := Function.update_apply ..

omit [DecidableEq ι] in
theorem Account.kept (h : Account P b₀ ls served s) (l : Label X Q O ι) {i : ι} {job : Job Q A}
    (hjob : s.jobs i = some job) : .send i job.request ∈ ls ++ [l] :=
  List.mem_append_left _ (h.sent i job hjob)

theorem Account.replaced (h : Account P b₀ ls served s) (l : Label X Q O ι) {i j : ι}
    {old new job : Job Q A} (hold : s.jobs i = some old)
    (hjob : (s.setJob i new).jobs j = some job) (hsame : new.request = old.request) :
    .send j job.request ∈ ls ++ [l] := by
  rw [setJob_jobs] at hjob
  split at hjob
  · subst_vars
    cases hjob
    rw [hsame]
    exact h.kept l hold
  · exact h.kept l hjob

omit [DecidableEq ι] in
theorem Account.passed_other (h : Account P b₀ ls served s) {l : Label X Q O ι}
    (hother : ∀ i q, l ≠ .send i q) {i : ι} {q : Q} (hmem : .send i q ∈ ls ++ [l]) :
    ∃ f, P.passes f q := by
  rcases List.mem_append.mp hmem with hmem | hmem
  · exact h.passed i q hmem
  · exact absurd (List.mem_singleton.mp hmem).symm (hother i q)

omit [DecidableEq ι] in
theorem Account.settled_other (h : Account P b₀ ls served s) {l : Label X Q O ι}
    (hother : ∀ i o, l ≠ .settle i o) (more : List (ι × Q × A)) {i : ι} {o : O}
    (hmem : .settle i o ∈ ls ++ [l]) : ∃ q, .send i q ∈ ls ++ [l] ∧
      (P.reply q none o ∨ ∃ a, (i, q, a) ∈ served ++ more ∧ P.reply q (some a) o) := by
  rcases List.mem_append.mp hmem with hmem | hmem
  · exact h.settled_mono l more hmem
  · exact absurd (List.mem_singleton.mp hmem).symm (hother i o)

omit [DecidableEq ι] in
theorem Account.aside (h : Account P b₀ ls served s) (x : X) (f : F) :
    Account P b₀ (ls ++ [.aside x]) served { s with front := f } where
  run := h.run
  once := h.once
  sent _ _ hjob := h.kept (.aside x) hjob
  passed _ _ hmem := h.passed_other (fun _ _ h => by cases h) hmem
  answered := h.answered
  settled i o hmem := by simpa using h.settled_other (fun _ _ h => by cases h) [] hmem

theorem Account.send (h : Account P b₀ ls served s) {i : ι} {q : Q} (hnew : s.jobs i = none)
    (hq : P.passes s.front q) :
    Account P b₀ (ls ++ [.send i q]) served (s.setJob i { request := q }) := by
  refine ⟨h.run, h.once, fun j job hjob => ?_, fun j q' hmem => ?_, fun j q' a => ?_,
    fun j o hmem => by simpa using h.settled_other (fun _ _ h => by cases h) [] hmem⟩
  · rw [setJob_jobs] at hjob
    split at hjob
    · subst_vars
      cases hjob
      exact List.mem_append_right _ (List.mem_singleton_self _)
    · exact h.kept _ hjob
  · rcases List.mem_append.mp hmem with hmem | hmem
    · exact h.passed j q' hmem
    · cases List.mem_singleton.mp hmem
      exact ⟨s.front, hq⟩
  · rw [h.answered, setJob_jobs]
    by_cases hj : j = i
    · subst hj
      rw [hnew, if_pos rfl]
      constructor
      · rintro ⟨closed, hno⟩
        cases hno
      · rintro ⟨closed, hno⟩
        cases hno
    · rw [if_neg hj]

theorem Account.serve (h : Account P b₀ ls served s) {i : ι} {job : Job Q A} {a : A} {b : S}
    (hjob : s.jobs i = some job) (hopen : job.answer = none)
    (hserve : P.serve s.backend job.request a b) :
    Account P b₀ (ls ++ [.serve i]) (served ++ [(i, job.request, a)])
      { s.setJob i { job with answer := some a } with backend := b } := by
  have hnew : i ∉ served.map Prod.fst := h.not_served fun job' hjob' => by
    rw [hjob] at hjob'
    cases hjob'
    exact hopen
  refine ⟨h.run.snoc hserve, ?_, fun j job' hjob' => h.replaced (.serve i) hjob hjob' rfl,
    fun j q' hmem => h.passed_other (fun _ _ h => by cases h) hmem, fun j q' a' => ?_,
    fun j o hmem => h.settled_other (fun _ _ h => by cases h) _ hmem⟩
  · rw [List.map_append, List.map_singleton, List.nodup_append]
    refine ⟨h.once, List.nodup_singleton _, fun x hx y hy => ?_⟩
    rw [List.mem_singleton.mp hy]
    exact ne_of_mem_of_not_mem hx hnew
  · change _ ↔ ∃ closed, (s.setJob i _).jobs j = _
    rw [List.mem_append, h.answered, setJob_jobs, List.mem_singleton]
    by_cases hj : j = i
    · subst hj
      rw [hjob, if_pos rfl]
      constructor
      · rintro (⟨closed, hsome⟩ | heq)
        · cases hsome
          cases hopen
        · cases heq
          exact ⟨job.settled, rfl⟩
      · rintro ⟨closed, hsome⟩
        cases hsome
        exact Or.inr rfl
    · rw [if_neg hj]
      exact or_iff_left fun heq => hj (Prod.mk.inj heq).1

theorem Account.settle (h : Account P b₀ ls served s) {i : ι} {job : Job Q A} {o : O}
    (hjob : s.jobs i = some job) (hreply : P.reply job.request job.answer o) :
    Account P b₀ (ls ++ [.settle i o]) served (s.setJob i { job with settled := true }) := by
  refine ⟨h.run, h.once, fun j job' hjob' => h.replaced (.settle i o) hjob hjob' rfl,
    fun j q' hmem => h.passed_other (fun _ _ h => by cases h) hmem, fun j q' a => ?_,
    fun j o' hmem => ?_⟩
  · rw [h.answered, setJob_jobs]
    by_cases hj : j = i
    · subst hj
      rw [hjob, if_pos rfl]
      constructor
      · rintro ⟨closed, hsome⟩
        cases hsome
        exact ⟨true, rfl⟩
      · rintro ⟨closed, hsome⟩
        obtain ⟨request, answer, was⟩ := job
        cases hsome
        exact ⟨was, rfl⟩
    · rw [if_neg hj]
  · rcases List.mem_append.mp hmem with hmem | hmem
    · have hmono := h.settled_mono (.settle i o) [] hmem
      rwa [List.append_nil] at hmono
    · cases List.mem_singleton.mp hmem
      refine ⟨job.request, h.kept _ hjob, ?_⟩
      cases hans : job.answer with
      | none => exact Or.inl (hans ▸ hreply)
      | some a =>
        refine Or.inr ⟨a, (h.answered i _ a).mpr ⟨job.settled, ?_⟩, hans ▸ hreply⟩
        rw [hjob, ← hans]

/-- Each step adds to what was served, and changes nothing of it. -/
theorem Account.step (h : Account P b₀ ls served s) {l : Label X Q O ι} (hs : Step P s l t) :
    ∃ more, Account P b₀ (ls ++ [l]) (served ++ more) t ∧
      Run (Serves P) s.backend more t.backend := by
  cases hs with
  | @aside x f hx => exact ⟨[], by rw [List.append_nil]; exact h.aside x f, .nil⟩
  | send hnew hq => exact ⟨[], by rw [List.append_nil]; exact h.send hnew hq, .nil⟩
  | serve hjob hopen hserve => exact ⟨_, h.serve hjob hopen hserve, .single hserve⟩
  | settle hjob hopen hreply =>
    exact ⟨[], by rw [List.append_nil]; exact h.settle hjob hreply, .nil⟩

/-- What a run has served stays served, in the same order, while the run goes on. -/
theorem Account.run_more (h : Account P b₀ ls served s) {ks : List (Label X Q O ι)}
    (hrun : Run (Step P) s ks t) : ∃ more, Account P b₀ (ls ++ ks) (served ++ more) t ∧
      Run (Serves P) s.backend more t.backend := by
  refine hrun.traceInvariant (I := fun ks t => ∃ more, Account P b₀ (ls ++ ks) (served ++ more) t ∧
    Run (Serves P) s.backend more t.backend) ⟨[], by simpa using h, .nil⟩ ?_
  rintro ks m l t ⟨more, hm, hmore⟩ hstep
  obtain ⟨more', hm', hmore'⟩ := hm.step hstep
  exact ⟨more ++ more', by simpa only [List.append_assoc] using hm', hmore.append hmore'⟩

end Account

section Indices
variable {s t : State F S Q A ι} {l : Label X Q O ι} {ls : List (Label X Q O ι)} {i : ι} {q : Q}

theorem Step.request_kept (h : Step P s l t) {job : Job Q A} (hjob : s.jobs i = some job) :
    ∃ job', t.jobs i = some job' ∧ job'.request = job.request := by
  have hset : ∀ {j : ι} {old new : Job Q A}, s.jobs j = some old → new.request = old.request →
      ∃ job', (s.setJob j new).jobs i = some job' ∧ job'.request = job.request := by
    intro j old new hold hnew
    rw [setJob_jobs]
    by_cases hi : i = j
    · subst hi
      rw [hold] at hjob
      exact ⟨new, if_pos rfl, hnew.trans (congrArg Job.request (Option.some.inj hjob))⟩
    · exact ⟨job, (if_neg hi).trans hjob, rfl⟩
  cases h with
  | aside hx => exact ⟨job, hjob, rfl⟩
  | @send j q hnew hq =>
    have hi : i ≠ j := by
      rintro rfl
      rw [hnew] at hjob
      cases hjob
    exact ⟨job, by rw [setJob_jobs, if_neg hi, hjob], rfl⟩
  | serve hold hopen hserve => exact hset hold rfl
  | settle hold hopen hreply => exact hset hold rfl

theorem request_kept (h : Run (Step P) s ls t) {job : Job Q A} (hjob : s.jobs i = some job) :
    ∃ job', t.jobs i = some job' ∧ job'.request = job.request := by
  refine h.invariant (I := fun t : State F S Q A ι => ∃ job', t.jobs i = some job' ∧
    job'.request = job.request) ⟨job, hjob, rfl⟩ ?_
  rintro m l t ⟨job', hjob', hrequest⟩ hstep
  obtain ⟨job'', hjob'', hrequest'⟩ := hstep.request_kept hjob'
  exact ⟨job'', hjob'', hrequest'.trans hrequest⟩

/-- A run sends something with an index that is new to it, and only once. -/
theorem request_of_sent (h : Run (Step P) s ls t) (hmem : .send i q ∈ ls) :
    s.jobs i = none ∧ ∃ job, t.jobs i = some job ∧ job.request = q := by
  obtain ⟨before, after, rfl⟩ := List.append_of_mem hmem
  obtain ⟨m, m', hbefore, hsend, hafter⟩ := h.split_cons
  cases hsend with
  | send hnew hq =>
    refine ⟨?_, request_kept hafter (by rw [setJob_jobs, if_pos rfl])⟩
    cases hjob : s.jobs i with
    | none => rfl
    | some job =>
      obtain ⟨job', hjob', -⟩ := request_kept hbefore hjob
      rw [hnew] at hjob'
      cases hjob'

theorem sent_unique (h : Run (Step P) s ls t) {q' : Q} (hmem : .send i q ∈ ls)
    (hmem' : .send i q' ∈ ls) : q = q' := by
  obtain ⟨-, job, hjob, rfl⟩ := request_of_sent h hmem
  obtain ⟨-, job', hjob', rfl⟩ := request_of_sent h hmem'
  rw [hjob] at hjob'
  rw [Option.some.inj hjob']

theorem Account.not_served_before {b₀ : S} {served : List (ι × Q × A)}
    (h : Account P b₀ ls served s) {ks : List (Label X Q O ι)} (hrun : Run (Step P) s ks t)
    (hmem : .send i q ∈ ks) : i ∉ served.map Prod.fst := by
  apply h.not_served
  intro job hjob
  rw [(request_of_sent hrun hmem).1] at hjob
  cases hjob

end Indices

end Steps

end Relay
