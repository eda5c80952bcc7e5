import NervFS.Holding
import NervFS.Visits

/-!
Several server processes over one storage directory. The name locks exclude handlers of
one process only, and the fcntl lock is taken after the truncation and after the `fstat`,
so a download is right as long as no window of another process overlaps: no truncation
while the file is being read or filled, no `fstat` while it is being filled.
-/
namespace NervFS.SharedDirectory

open Programs KeyedStore KeyedStore.Semantics Transitions Calls Protocol FileOps Handlers
open Requests Kernel Responses Alone FailedUploads Workers WholeFiles Holding Visits

/-- The handler has opened a window on the file and may still touch the file. -/
def InWindow (host : Host) (n : Bytes) (m : Mode) (svc : Service) : Prop :=
  entered host svc.log = some (n, m) ∧ ¬ (semantics host).Rests svc.prog

section Handler
variable {host : Host} {W : Bytes → Bytes → Prop} {gens : ℕ} {n : Bytes} {Q : Local → Prop}
variable {σ σ' : Bytes → Node} {svc : Service}

/-- The rest of the handler, run alone, leaves an entry that fits and a good answer. -/
abbrev Ends (host : Host) (W : Bytes → Bytes → Prop) (gens : ℕ) (n : Bytes) (Q : Local → Prop)
    (p : Prog Unit) (τ : Bytes → Node) (l : Local) : Prop :=
  p.wp (semantics host).handle (fun _ s => Fit W gens n (s.1 n) ∧ Q s.2) (τ, l)

/-- What the rest of a handler will do: before its window from any entry that fits, within
the window from the entry as it is now, and afterwards whatever happens to the file. -/
inductive Stands (host : Host) (W : Bytes → Bytes → Prop) (gens : ℕ) (n : Bytes)
    (Q : Local → Prop) (σ : Bytes → Node) (svc : Service) : Prop
  | ahead (hvisit : Visit host n .ahead svc.prog) (hlog : entered host svc.log = none)
      (hends : ∀ τ, Fit W gens n (τ n) → Ends host W gens n Q svc.prog τ svc.loc)
  | found (hvisit : Visit host n .found svc.prog) (hlog : entered host svc.log = none)
      (hfile : (σ n).current ≠ none)
      (hends : ∀ τ, Fit W gens n (τ n) → (τ n).current ≠ none →
        Ends host W gens n Q svc.prog τ svc.loc)
  | within (m : Mode) (hvisit : Visit host n (.within m) svc.prog)
      (hlog : entered host svc.log = some (n, m)) (hrests : ¬ (semantics host).Rests svc.prog)
      (hphase : ∃ m', phaseOf host svc.log = .inside n m' ∧ (m = .exclusive → m' = .exclusive))
      (hends : ∀ τ, τ n = σ n → Ends host W gens n Q svc.prog τ svc.loc)
  | done (hrests : (semantics host).Rests svc.prog)
      (hends : ∀ τ, svc.prog.wp (semantics host).handle (fun _ s => Q s.2) (τ, svc.loc))

theorem Stands.window (h : Stands host W gens n Q σ svc) {n' : Bytes} {m : Mode}
    (hw : InWindow host n' m svc) :
    n' = n ∧ ∃ m', phaseOf host svc.log = .inside n m' ∧ (m = .exclusive → m' = .exclusive) := by
  obtain ⟨hlog', hrests'⟩ := hw
  cases h with
  | ahead hvisit hlog hends =>
    rw [hlog] at hlog'
    cases hlog'
  | found hvisit hlog hfile hends =>
    rw [hlog] at hlog'
    cases hlog'
  | within m' hvisit hlog hrests hphase hends =>
    rw [hlog] at hlog'
    cases hlog'
    exact ⟨rfl, hphase⟩
  | done hrests hends => exact absurd hrests hrests'

/-- The other handlers may change the file outside the window, as long as it stays. -/
theorem Stands.frame (h : Stands host W gens n Q σ svc) (hgrows : Grows (σ n) (σ' n))
    (hwindow : ∀ m, InWindow host n m svc → σ' n = σ n) : Stands host W gens n Q σ' svc := by
  cases h with
  | ahead hvisit hlog hends => exact .ahead hvisit hlog hends
  | found hvisit hlog hfile hends => exact .found hvisit hlog (hgrows.current hfile) hends
  | within m hvisit hlog hrests hphase hends =>
    refine .within m hvisit hlog hrests hphase ?_
    rw [hwindow m ⟨hlog, hrests⟩]
    exact hends
  | done hrests hends => exact .done hrests hends

theorem stands_rest {p : Prog Unit} {l : Local} {τ : Bytes → Node}
    (log : List Call) (hrests : (semantics host).Rests p) (hends : Ends host W gens n Q p τ l) :
    Stands host W gens n Q σ ⟨p, l, log⟩ ∧ Fit W gens n (τ n) := by
  obtain ⟨l', ⟨hfit, hQ⟩, hall⟩ := wp_rests_iff
    (Q := fun τ l => Fit W gens n (τ n) ∧ Q l) hrests hends
  refine ⟨.done hrests fun τ' => Program.wp_mono (hall τ') ?_, hfit⟩
  rintro _ _ rfl
  exact hQ

theorem stands_window {m : Mode} (p : Prog Unit) (l : Local) (log : List Call)
    (hvisit : Visit host n (.within m) p) (hlog : entered host log = some (n, m))
    (hphase : ¬ (semantics host).Rests p →
      ∃ m', phaseOf host log = .inside n m' ∧ (m = .exclusive → m' = .exclusive))
    (hends : ∀ τ, τ n = σ n → Ends host W gens n Q p τ l) :
    Stands host W gens n Q σ ⟨p, l, log⟩ ∧
      (¬ InWindow host n m ⟨p, l, log⟩ → Fit W gens n (σ n)) := by
  by_cases hrests : (semantics host).Rests p
  · obtain ⟨hstands, hfit⟩ := stands_rest (σ := σ) log hrests (hends σ rfl)
    exact ⟨hstands, fun _ => hfit⟩
  · exact ⟨.within m hvisit hlog hrests (hphase hrests) hends,
      fun hout => absurd ⟨hlog, hrests⟩ hout⟩

theorem openRead_none {path : Bytes} (hres : resolve host.root path = some n) {l l' : Local}
    (hh : (semantics host).handle (.openRead path) (σ, l) = some (none, σ', l'))
    {τ : Bytes → Node} (hτ : (τ n).current = none) :
    (semantics host).handle (.openRead path) (τ, l) = some (none, τ, l') := by
  have hrole : (semantics host).role (.openRead path) = .access n .shared :=
    roleOfPath_resolved hres _
  obtain ⟨hr, -, hl⟩ := of_handle_access hrole hh
  have hτnode : (semantics host).touch (.openRead path) (τ n) l = (none, τ n, l.popOpen) := by
    simp only [semantics, Kernel.touch, hres, openReadNode, hτ]
  have hσnode : ((semantics host).touch (.openRead path) (σ n) l).2.2 = l.popOpen := by
    simp only [semantics, Kernel.touch, hres] at hr ⊢
    unfold openReadNode at hr ⊢
    split
    · next f hf =>
      simp only [hf] at hr
      split
      · next hok =>
        rw [if_pos hok] at hr
        cases hr
      · rfl
    · rfl
  rw [handle_access hrole, hτnode, Function.update_eq_self, ← hl, hσnode]

theorem openRead_some (hperm : ∀ kind mode, host.permits kind mode = true) {path : Bytes}
    (hres : resolve host.root path = some n) {l l' : Local} {file : Fd}
    (hh : (semantics host).handle (.openRead path) (σ, l) = some (some file, σ', l')) :
    (σ n).current ≠ none ∧ ∀ τ, (τ n).gone.length = (σ n).gone.length → (τ n).current ≠ none →
      (semantics host).handle (.openRead path) (τ, l) = some (some file, τ, l') := by
  have hrole : (semantics host).role (.openRead path) = .access n .shared :=
    roleOfPath_resolved hres _
  obtain ⟨hr, -, hl⟩ := of_handle_access hrole hh
  simp only [semantics, Kernel.touch, hres] at hr hl
  have hok : OpensRead host (σ n) l := by
    by_contra hno
    rw [openRead_refused n hno] at hr
    cases hr
  rw [openRead_opened n hok] at hr hl
  obtain ⟨hhead, f, hf, -⟩ := hok
  refine ⟨by rw [hf]; exact Option.some_ne_none f, fun τ hgone hcur => ?_⟩
  obtain ⟨g, hg⟩ := Option.ne_none_iff_exists'.mp hcur
  have hτok : OpensRead host (τ n) l := ⟨hhead, g, hg, hperm _ _⟩
  have htouch : (semantics host).touch (.openRead path) (τ n) l = (some file, τ n, l') := by
    simp only [semantics, Kernel.touch, hres]
    rw [openRead_opened n hτok, hgone, ← hl]
    exact congrArg (·, τ n, _) hr
  rw [handle_access hrole, htouch, Function.update_eq_self]

variable {e : Call} {k : Reply e → Prog Unit} {r : Reply e} {l l' : Local} {log : List Call}

/-- What a call of a handler does for the handler itself. -/
structure Moves (host : Host) (W : Bytes → Bytes → Prop) (gens : ℕ) (n : Bytes)
    (Q : Local → Prop) (σ σ' : Bytes → Node) (svc svc' : Service) (e : Call) : Prop where
  stands : Stands host W gens n Q σ' svc'
  changes : σ' n = σ n ∨ InWindow host n .exclusive svc ∨ enters host e = some (n, .exclusive)
  settles : ¬ InWindow host n .exclusive svc' →
    (σ' n = σ n ∧ ¬ InWindow host n .exclusive svc) ∨ Fit W gens n (σ' n)

theorem not_inWindow (h : entered host log = none) (p : Prog Unit) (l : Local) (m : Mode) :
    ¬ InWindow host n m ⟨p, l, log⟩ := by
  rintro ⟨hlog, -⟩
  rw [h] at hlog
  cases hlog

theorem entered_quiet (hq : Quiet e) : entered host (log ++ [e]) = entered host log := by
  rw [entered_snoc, quiet_enters hq, Option.none_or]

/-- An access to the file takes place inside the section of its name. -/
theorem phase_access {m : Mode} (hr : (semantics host).role e = .access n m)
    (hsec : (semantics host).Sectioned (phaseOf host log) (.call e k)) :
    ∃ m', phaseOf host (log ++ [e]) = .inside n m' ∧ (m = .exclusive → m' = .exclusive) := by
  obtain ⟨m', hph, hm, -⟩ := sectioned_access hsec hr ({} : Node) ({} : Local)
  refine ⟨m', ?_, hm⟩
  rw [phaseOf_snoc, hph, phaseAfter_same] <;> simp [hr]

theorem moves_ahead (hperm : ∀ kind mode, host.permits kind mode = true)
    (hvisit : Visit host n .ahead (.call e k)) (hlog : entered host log = none)
    (hends : ∀ τ, Fit W gens n (τ n) → Ends host W gens n Q (.call e k) τ l)
    (hsec : (semantics host).Sectioned (phaseOf host log) (.call e k))
    (hgone : (σ n).gone.length = gens) (hfit : enters host e ≠ none → Fit W gens n (σ n))
    (hh : (semantics host).handle e (σ, l) = some (r, σ', l')) :
    Moves host W gens n Q σ σ' ⟨.call e k, l, log⟩ ⟨k r, l', log ++ [e]⟩ e := by
  have hnext := hvisit.2 r (handle_replies hh)
  obtain ⟨-, -, heffect⟩ := visits_effect hvisit.1 hh
  have hout : ∀ m, ¬ InWindow host n m ⟨.call e k, l, log⟩ := not_inWindow hlog _ _
  rcases visits_cases hvisit.1 with hq | ⟨path, rfl, -, hres⟩ | ⟨path, rfl, -, hres⟩ |
    ⟨_, -, hs, -⟩ | ⟨_, _, -, hs, -⟩ | ⟨_, _, _, _, _, -, hs, -⟩
  · obtain ⟨rfl, hany⟩ := handle_idle_any (quiet_idle hq) hh
    rw [(quiet_visits hq .ahead).2 r] at hnext
    refine ⟨.ahead hnext ((entered_quiet hq).trans hlog) fun τ hτ => ?_, Or.inl rfl,
      fun _ => Or.inl ⟨rfl, hout _⟩⟩
    exact Program.wp_of_call (hends τ hτ) (hany τ)
  · have hsame : σ' n = σ n := heffect.resolve_right (by cases r <;> exact nofun)
    refine ⟨?_, Or.inl hsame, fun _ => Or.inl ⟨hsame, hout _⟩⟩
    cases r with
    | none =>
      let τ : Bytes → Node := Function.update σ n { σ n with current := none }
      have hτ : τ n = { σ n with current := none } := Function.update_self ..
      refine (stands_rest _ (rests_of_done hnext) (Program.wp_of_call (hends τ ?_)
        (openRead_none hres hh (by rw [hτ])))).1
      rw [hτ]
      exact ⟨nofun, hgone⟩
    | some file =>
      obtain ⟨hcur, hall⟩ := openRead_some hperm hres hh
      refine .found hnext ?_ (by rw [hsame]; exact hcur) fun τ hτ hτcur => ?_
      · rw [entered_snoc, hlog]
        rfl
      · exact Program.wp_of_call (hends τ hτ) (hall τ (hτ.gone.trans hgone.symm) hτcur)
  · have henters : enters host (.openWrite path) = some (n, .exclusive) := by
      simp only [enters, hres, Option.map_some]
    have hfitσ : Fit W gens n (σ n) := hfit (by rw [henters]; exact nofun)
    have hrole : (semantics host).role (.openWrite path) = .access n .exclusive :=
      roleOfPath_resolved hres _
    cases r with
    | none =>
      have hsame : σ' n = σ n := heffect.resolve_right nofun
      refine ⟨(stands_rest _ (rests_of_done hnext) (Program.wp_of_call (hends σ hfitσ) hh)).1,
        Or.inl hsame, fun _ => Or.inl ⟨hsame, hout _⟩⟩
    | some file =>
      obtain ⟨hstands, hsettle⟩ := stands_window (σ := σ') (m := .exclusive)
        (k (some file)) l' (log ++ [.openWrite path]) hnext
        (by rw [entered_snoc, henters]; rfl)
        (fun _ => phase_access hrole hsec)
        (wp_agree (Or.inr ⟨_, hrole⟩) hh fun τ hτ => hends τ (by rw [hτ]; exact hfitσ))
      exact ⟨hstands, Or.inr (Or.inr henters), fun hw => Or.inr (hsettle hw)⟩
  all_goals cases hs

theorem moves_found (hvisit : Visit host n .found (.call e k)) (hlog : entered host log = none)
    (hcur : (σ n).current ≠ none)
    (hends : ∀ τ, Fit W gens n (τ n) → (τ n).current ≠ none →
      Ends host W gens n Q (.call e k) τ l)
    (hsec : (semantics host).Sectioned (phaseOf host log) (.call e k))
    (hfit : enters host e ≠ none → Fit W gens n (σ n))
    (hh : (semantics host).handle e (σ, l) = some (r, σ', l')) :
    Moves host W gens n Q σ σ' ⟨.call e k, l, log⟩ ⟨k r, l', log ++ [e]⟩ e := by
  have hnext := hvisit.2 r (handle_replies hh)
  obtain ⟨-, -, heffect⟩ := visits_effect hvisit.1 hh
  have hout : ∀ m, ¬ InWindow host n m ⟨.call e k, l, log⟩ := not_inWindow hlog _ _
  rcases visits_cases hvisit.1 with hq | ⟨_, -, hs, -⟩ | ⟨_, -, hs, -⟩ |
    ⟨file, rfl, -, rfl⟩ | ⟨_, _, -, hs, -⟩ | ⟨_, _, _, _, _, -, hs, -⟩
  · obtain ⟨rfl, hany⟩ := handle_idle_any (quiet_idle hq) hh
    rw [(quiet_visits hq .found).2 r] at hnext
    refine ⟨.found hnext ((entered_quiet hq).trans hlog) hcur fun τ hτ hτcur => ?_, Or.inl rfl,
      fun _ => Or.inl ⟨rfl, hout _⟩⟩
    exact Program.wp_of_call (hends τ hτ hτcur) (hany τ)
  · cases hs
  · cases hs
  · have hsame : σ' file.ino.name = σ file.ino.name :=
      heffect.resolve_right (by cases r <;> exact nofun)
    have hfitσ : Fit W gens file.ino.name (σ file.ino.name) := hfit nofun
    refine ⟨?_, Or.inl hsame, fun _ => Or.inl ⟨hsame, hout _⟩⟩
    cases r with
    | none =>
      exact (stands_rest _ (rests_of_done hnext)
        (Program.wp_of_call (hends σ hfitσ hcur) hh)).1
    | some size =>
      exact (stands_window (m := .shared) _ _ _ hnext (by rw [entered_snoc]; rfl)
        (fun _ => phase_access (m := .shared) rfl hsec)
        (wp_agree (Or.inr ⟨.shared, rfl⟩) hh fun τ hτ =>
          hends τ (by rw [hτ]; exact hfitσ) (by rw [hτ]; exact hcur))).1
  · cases hs
  · cases hs

theorem moves_within {m : Mode} (hvisit : Visit host n (.within m) (.call e k))
    (hlog : entered host log = some (n, m)) (hrests : ¬ (semantics host).Rests (.call e k))
    (hphase : ∃ m', phaseOf host log = .inside n m' ∧ (m = .exclusive → m' = .exclusive))
    (hends : ∀ τ, τ n = σ n → Ends host W gens n Q (.call e k) τ l)
    (hsec : (semantics host).Sectioned (phaseOf host log) (.call e k))
    (hh : (semantics host).handle e (σ, l) = some (r, σ', l')) :
    Moves host W gens n Q σ σ' ⟨.call e k, l, log⟩ ⟨k r, l', log ++ [e]⟩ e := by
  have hstage : enters host e = none ∧ (visits host n).next (.within m) e r = .within m := by
    rcases visits_cases hvisit.1 with hq | ⟨_, -, hs, -⟩ | ⟨_, -, hs, -⟩ |
      ⟨_, -, hs, -⟩ | ⟨_, _, rfl, -, -⟩ | ⟨_, _, _, _, _, rfl, -, -⟩
    · exact ⟨quiet_enters hq, (quiet_visits hq _).2 r⟩
    · cases hs
    · cases hs
    · cases hs
    · exact ⟨rfl, rfl⟩
    · exact ⟨rfl, rfl⟩
  have hnext := hvisit.2 r (handle_replies hh)
  rw [hstage.2] at hnext
  obtain ⟨-, -, heffect⟩ := visits_effect hvisit.1 hh
  rw [hstage.2] at heffect
  obtain ⟨hstands, hsettle⟩ := stands_window (σ := σ') (k r) l' (log ++ [e])
    hnext (by rw [entered_snoc, hstage.1, Option.none_or, hlog])
    (fun hgo => by
      obtain ⟨m', hph, hm⟩ := hphase
      refine ⟨m', ?_, hm⟩
      rw [phaseOf_snoc, hph]
      rcases phaseAfter_inside (M := semantics host) n m' e with hin | hafter
      · exact hin
      · have hsec' := sectioned_handled hsec hh
        rw [hph, hafter] at hsec'
        exact absurd (rests_after hsec') hgo)
    (wp_agree (visits_role hvisit.1) hh hends)
  cases m with
  | exclusive =>
    exact ⟨hstands, Or.inr (Or.inl ⟨hlog, hrests⟩), fun hw => Or.inr (hsettle hw)⟩
  | shared =>
    have hsame : σ' n = σ n := heffect.resolve_right nofun
    refine ⟨hstands, Or.inl hsame, fun _ => Or.inl ⟨hsame, ?_⟩⟩
    rintro ⟨hlog', -⟩
    rw [hlog] at hlog'
    cases hlog'

theorem moves_done (hrests : (semantics host).Rests (.call e k))
    (hends : ∀ τ, (Program.call e k).wp (semantics host).handle (fun _ s => Q s.2) (τ, l))
    (hh : (semantics host).handle e (σ, l) = some (r, σ', l')) :
    Moves host W gens n Q σ σ' ⟨.call e k, l, log⟩ ⟨k r, l', log ++ [e]⟩ e := by
  obtain ⟨rfl, hany⟩ := handle_idle_any hrests.1 hh
  refine ⟨.done (hrests.2 r (handle_replies hh)) fun τ => ?_, Or.inl rfl,
    fun _ => Or.inl ⟨rfl, fun hw => hw.2 hrests⟩⟩
  exact Program.wp_of_call (hends τ) (hany τ)

/-- Every call of a handler moves it on; a call that opens a window needs a file that fits. -/
theorem Stands.moves (hperm : ∀ kind mode, host.permits kind mode = true)
    (h : Stands host W gens n Q σ ⟨.call e k, l, log⟩)
    (hsec : (semantics host).Sectioned (phaseOf host log) (.call e k))
    (hgone : (σ n).gone.length = gens) (hfit : enters host e ≠ none → Fit W gens n (σ n))
    (hh : (semantics host).handle e (σ, l) = some (r, σ', l')) :
    Moves host W gens n Q σ σ' ⟨.call e k, l, log⟩ ⟨k r, l', log ++ [e]⟩ e := by
  cases h with
  | ahead hvisit hlog hends => exact moves_ahead hperm hvisit hlog hends hsec hgone hfit hh
  | found hvisit hlog hcur hends => exact moves_found hvisit hlog hcur hends hsec hfit hh
  | within m hvisit hlog hrests hphase hends =>
    exact moves_within hvisit hlog hrests hphase hends hsec hh
  | done hrests hends => exact moves_done hrests hends hh

theorem Stands.effect (h : Stands host W gens n Q σ ⟨.call e k, l, log⟩)
    (hh : (semantics host).handle e (σ, l) = some (r, σ', l')) :
    (∀ m, m ≠ n → σ' m = σ m) ∧ Grows (σ n) (σ' n) := by
  have hvisits : ∀ {stage}, Visit host n stage (.call e k) →
      (∀ m, m ≠ n → σ' m = σ m) ∧ Grows (σ n) (σ' n) := fun hvisit =>
    ⟨(visits_effect hvisit.1 hh).1, (visits_effect hvisit.1 hh).2.1⟩
  cases h with
  | ahead hvisit hlog hends => exact hvisits hvisit
  | found hvisit hlog hcur hends => exact hvisits hvisit
  | within m hvisit hlog hrests hphase hends => exact hvisits hvisit
  | done hrests hends =>
    obtain ⟨rfl, -⟩ := handle_idle_any hrests.1 hh
    exact ⟨fun _ _ => rfl, .refl _⟩

theorem inWindow_after {n' : Bytes} {m : Mode}
    (hh : (semantics host).handle e (σ, l) = some (r, σ', l'))
    (hw : InWindow host n' m ⟨k r, l', log ++ [e]⟩) :
    InWindow host n' m ⟨.call e k, l, log⟩ ∨ enters host e = some (n', m) := by
  obtain ⟨hlog, hrests⟩ := hw
  rw [entered_snoc] at hlog
  cases hent : enters host e with
  | none =>
    rw [hent, Option.none_or] at hlog
    exact Or.inl ⟨hlog, fun hr => hrests (hr.2 r (handle_replies hh))⟩
  | some w =>
    rw [hent] at hlog
    exact Or.inr hlog

/-- A call opens the window of the file that the handler visits, before any other. -/
theorem Stands.enters (h : Stands host W gens n Q σ ⟨.call e k, l, log⟩) {n' : Bytes} {m : Mode}
    (hent : Visits.enters host e = some (n', m)) :
    n' = n ∧ (semantics host).role e = .access n m ∧
      ∀ n' m', ¬ InWindow host n' m' ⟨.call e k, l, log⟩ := by
  have hopens : ∀ {stage}, Visit host n stage (.call e k) →
      (∃ path, e = .openWrite path ∧ stage = .ahead ∧ resolve host.root path = some n) ∨
        ∃ file, e = .fstat file ∧ stage = .found ∧ file.ino.name = n := by
    intro stage hvisit
    rcases visits_cases hvisit.1 with hq | ⟨path, rfl, -, -⟩ | hwrite | hstat |
      ⟨_, _, rfl, -, -⟩ | ⟨_, _, _, _, _, rfl, -, -⟩
    · rw [quiet_enters hq] at hent
      cases hent
    · cases hent
    · exact Or.inl hwrite
    · exact Or.inr hstat
    · cases hent
    · cases hent
  have hout : entered host log = none → ∀ n' m', ¬ InWindow host n' m' ⟨.call e k, l, log⟩ := by
    rintro hlog n' m' ⟨hlog', -⟩
    rw [hlog] at hlog'
    cases hlog'
  cases h with
  | ahead hvisit hlog hends =>
    rcases hopens hvisit with ⟨path, rfl, -, hres⟩ | ⟨_, -, hs, -⟩
    · simp only [Visits.enters, hres, Option.map_some, Option.some.injEq, Prod.mk.injEq] at hent
      obtain ⟨rfl, rfl⟩ := hent
      exact ⟨rfl, roleOfPath_resolved hres _, hout hlog⟩
    · cases hs
  | found hvisit hlog hcur hends =>
    rcases hopens hvisit with ⟨_, -, hs, -⟩ | ⟨file, rfl, -, rfl⟩
    · cases hs
    · cases hent
      exact ⟨rfl, rfl, hout hlog⟩
  | within m hvisit hlog hrests hphase hends =>
    rcases hopens hvisit with ⟨_, -, hs, -⟩ | ⟨_, -, hs, -⟩ <;> cases hs
  | done hrests hends =>
    have hidle := hrests.1
    cases e with
    | openWrite path =>
      cases hres : resolve host.root path with
      | none => simp [Visits.enters, hres] at hent
      | some name => exact absurd (roleOfPath_resolved hres .exclusive) (hidle.1 name _)
    | fstat file => exact absurd rfl (hidle.1 file.ino.name .shared)
    | _ => cases hent

end Handler

section Runs
variable {P T : Type} [DecidableEq P] [DecidableEq T] [Fintype P] [Fintype T]
variable {host : Host} {proc : T → P} {request : T → Request} {σ₀ : Bytes → Node}
variable {s s' : Workers.State P T}

/-- No handler of another process is in a window that conflicts with the mode. -/
def Clear (host : Host) (proc : T → P) (s : Workers.State P T) (t : T) (n : Bytes) (m : Mode) :
    Prop :=
  ∀ u, proc u ≠ proc t → ∀ m', InWindow host n m' (s.service u) → m = .shared ∧ m' = .shared

/-- A step that truncates a file or takes its size does so clear of the other processes. -/
def ClearNext (host : Host) (proc : T → P) (s : Workers.State P T) : Label T → Prop
  | .wake _ => True
  | .call t _ => ∀ e ∈ (s.service t).prog.next?, ∀ n m, enters host e = some (n, m) →
      Clear host proc s t n m

/-- The number of files that were unlinked under a name; uploads and downloads keep it. -/
def gens (σ₀ : Bytes → Node) (n : Bytes) : ℕ := (σ₀ n).gone.length

structure Inv (host : Host) (proc : T → P) (request : T → Request) (σ₀ : Bytes → Node)
    (s : Workers.State P T) : Prop where
  locked : Locked host proc s
  stands : ∀ t, Stands host (OneBody request σ₀) (gens σ₀ (targetOf (request t)))
    (targetOf (request t)) (Served (OneBody request σ₀) (request t)) s.storage (s.service t)
  gone : ∀ n, (s.storage n).gone.length = gens σ₀ n
  apart : ∀ t u n m m', t ≠ u → InWindow host n m (s.service t) →
    InWindow host n m' (s.service u) → m = .shared ∧ m' = .shared
  fit : ∀ n, (∀ t, ¬ InWindow host n .exclusive (s.service t)) →
    Fit (OneBody request σ₀) (gens σ₀ n) n (s.storage n)

omit [DecidableEq P] [DecidableEq T] [Fintype P] in
theorem start_inv (proc : T → P)
    (hok : ∀ t, (request t).Complete ∧ ((request t).header.opcode = opReqUpload ∨
      (request t).header.opcode = opReqDownload))
    (hfine : ∀ t, Unhindered (request t).outcomes ∧ Delivers (request t).loc) :
    Inv host proc request σ₀ (start host request σ₀) where
  locked := start_locked host proc
    (fun t => ⟨(hok t).1, (hok t).2.elim Or.inl fun h => Or.inr (Or.inl h)⟩) σ₀
  stands t := by
    refine .ahead (request_visits _ (hok t).1 (hok t).2) rfl fun τ hτ => ?_
    exact request_alone (request t) (hok t).1 (hok t).2 (hfine t).1 (hfine t).2
      (fun hop name body hf => Or.inr ⟨t, hop, hf⟩) hτ
  gone _ := rfl
  apart _ _ _ _ _ _ hw := by
    obtain ⟨hlog, -⟩ := hw
    cases hlog
  fit n _ := ⟨whole_start request σ₀ n, rfl⟩

variable {t : T} {malloc : Option ℕ} {e : Call} {k : Reply e → Prog Unit} {r : Reply e}
variable {l : Local}

/-- A handler that opens a window clear of the other processes is clear of its own. -/
theorem Inv.clear (hi : Inv host proc request σ₀ s)
    (ha : Answers host proc s t malloc e k r l s') {n : Bytes} {m : Mode}
    (hent : enters host e = some (n, m)) (hclear : Clear host proc s t n m) (u : T) (m' : Mode)
    (hw : InWindow host n m' (s.service u)) : u ≠ t ∧ m = .shared ∧ m' = .shared := by
  have hst := hi.stands t
  have hsec := hi.locked.sectioned t
  have hsvc : s.service t = ⟨.call e k, (s.service t).loc, (s.service t).log⟩ := by
    rw [← ha.prog]
  rw [hsvc] at hst
  obtain ⟨rfl, hrole, hout⟩ := hst.enters hent
  have hut : u ≠ t := by
    rintro rfl
    rw [hsvc] at hw
    exact hout _ _ hw
  refine ⟨hut, ?_⟩
  by_cases hproc : proc u = proc t
  · rw [ha.prog] at hsec
    obtain ⟨m₁, hph, hm₁, -⟩ := sectioned_access hsec hrole ({} : Node) ({} : Local)
    obtain ⟨hname, m₂, hph₂, hm₂⟩ := (hi.stands u).window hw
    rw [← hname] at hph₂
    obtain ⟨rfl, rfl⟩ := hi.locked.exclusion (Ne.symm hut) hproc.symm hph hph₂
    cases m with
    | exclusive => exact nomatch hm₁ rfl
    | shared =>
      cases m' with
      | exclusive => exact nomatch hm₂ rfl
      | shared => exact ⟨rfl, rfl⟩
  · exact hclear u hproc m' hw

theorem Inv.answers (hperm : ∀ kind mode, host.permits kind mode = true)
    (hi : Inv host proc request σ₀ s) (ha : Answers host proc s t malloc e k r l s')
    (hL : Locked host proc s')
    (hclear : ∀ n m, enters host e = some (n, m) → Clear host proc s t n m) :
    Inv host proc request σ₀ s' := by
  have hst := hi.stands t
  have hsec := hi.locked.sectioned t
  have hsvc : s.service t = ⟨.call e k, (s.service t).loc, (s.service t).log⟩ := by
    rw [← ha.prog]
  have hself : s'.service t = ⟨k r, l, (s.service t).log ++ [e]⟩ := by
    rw [ha.service, Function.update_self]
  have hother : ∀ u, u ≠ t → s'.service u = s.service u := fun u hu => by
    rw [ha.service, Function.update_of_ne hu]
  rw [hsvc] at hst
  rw [ha.prog] at hsec
  have hafter : ∀ {n m}, InWindow host n m (s'.service t) →
      InWindow host n m (s.service t) ∨ enters host e = some (n, m) := by
    intro n m hw
    rw [hself] at hw
    rw [hsvc]
    exact inWindow_after ha.handled hw
  -- before a window opens nobody fills the file
  have hfit : enters host e ≠ none → Fit (OneBody request σ₀) (gens σ₀ (targetOf (request t)))
      (targetOf (request t)) (s.storage (targetOf (request t))) := by
    intro hne
    obtain ⟨⟨n, m⟩, hent⟩ := Option.ne_none_iff_exists'.mp hne
    obtain ⟨rfl, -, -⟩ := hst.enters hent
    refine hi.fit _ fun u hw => ?_
    exact nomatch (hi.clear ha hent (hclear _ _ hent) u _ hw).2.2
  have hmoves := hst.moves hperm hsec (hi.gone _) hfit ha.handled
  obtain ⟨hframe, hgrows⟩ := hst.effect ha.handled
  rw [← hsvc, ← hself] at hmoves
  -- a window of another handler on the file keeps the file as it is
  have hkept : ∀ u m, u ≠ t → InWindow host (targetOf (request t)) m (s.service u) →
      s'.storage (targetOf (request t)) = s.storage (targetOf (request t)) := by
    intro u m hu hw
    rcases hmoves.changes with hsame | hwin | hent
    · exact hsame
    · exact nomatch (hi.apart t u _ _ _ hu.symm hwin hw).1
    · exact nomatch (hi.clear ha hent (hclear _ _ hent) u _ hw).2.1
  refine ⟨hL, fun u => ?_, fun n => ?_, fun u v n m m' huv hu hv => ?_, fun n hout => ?_⟩
  · by_cases hu : u = t
    · subst hu
      exact hmoves.stands
    · rw [hother u hu]
      by_cases hn : targetOf (request u) = targetOf (request t)
      · refine (hi.stands u).frame (by rw [hn]; exact hgrows) fun m hw => ?_
        rw [hn] at hw ⊢
        exact hkept u m hu hw
      · refine (hi.stands u).frame ?_ fun m _ => hframe _ hn
        rw [hframe _ hn]
        exact .refl _
  · by_cases hn : n = targetOf (request t)
    · rw [hn, hgrows.gone, hi.gone]
    · rw [hframe n hn, hi.gone]
  · by_cases hut : u = t
    · subst hut
      rw [hother v huv.symm] at hv
      rcases hafter hu with hold | hent
      · exact hi.apart u v n m m' huv hold hv
      · exact (hi.clear ha hent (hclear _ _ hent) v m' hv).2
    · rw [hother u hut] at hu
      by_cases hvt : v = t
      · subst hvt
        rcases hafter hv with hold | hent
        · exact hi.apart u v n m m' huv hu hold
        · exact (hi.clear ha hent (hclear _ _ hent) u m hu).2.symm
      · rw [hother v hvt] at hv
        exact hi.apart u v n m m' huv hu hv
  · have hothers : ∀ u, u ≠ t → ¬ InWindow host n .exclusive (s.service u) := by
      intro u hu hw
      rw [← hother u hu] at hw
      exact hout u hw
    by_cases hn : n = targetOf (request t)
    · subst hn
      rcases hmoves.settles (hout t) with ⟨hsame, hwas⟩ | hfits
      · rw [hsame]
        refine hi.fit _ fun u => ?_
        by_cases hu : u = t
        · exact hu ▸ hwas
        · exact hothers u hu
      · exact hfits
    · rw [hframe n hn]
      refine hi.fit n fun u hw => ?_
      by_cases hu : u = t
      · subst hu
        exact hn ((hi.stands u).window hw).1
      · exact hothers u hu hw

theorem Inv.step (hperm : ∀ kind mode, host.permits kind mode = true)
    (hi : Inv host proc request σ₀ s) {a : Label T} (h : next host proc s a = some s')
    (halloc : a.Allocates) (hclear : ClearNext host proc s a) :
    Inv host proc request σ₀ s' := by
  obtain ⟨hL, ⟨p, locks, rfl⟩ | ⟨t, malloc, e, k, r, l, rfl, ha, -⟩⟩ := hi.locked.step h halloc
  · exact ⟨hL, hi.stands, hi.gone, hi.apart, hi.fit⟩
  · refine hi.answers hperm ha hL fun n m hent => hclear e ?_ n m hent
    rw [ha.prog]
    rfl

/-- In every run in which files are truncated and measured clear of the other processes, a
download that answers with a file sends the size and the bytes of one whole body. -/
theorem downloads_whole_apart (host : Host) (hperm : ∀ kind mode, host.permits kind mode = true)
    (proc : T → P) (request : T → Request) (σ₀ : Bytes → Node)
    (hok : ∀ t, (request t).Complete ∧ ((request t).header.opcode = opReqUpload ∨
      (request t).header.opcode = opReqDownload))
    (hfine : ∀ t, Unhindered (request t).outcomes ∧ Delivers (request t).loc)
    {ls : List (Label T)}
    (h : Run (Where (Computes (next host proc)) fun s a _ =>
      a.Allocates ∧ ClearNext host proc s a) (start host request σ₀) ls s) :
    ∀ t, (request t).header.opcode = opReqDownload → (s.service t).prog = .ret () →
      DeliversWhole (OneBody request σ₀) (request t).payload (request t).loc (s.service t).loc := by
  have hi : Inv host proc request σ₀ s :=
    h.invariant (start_inv proc hok hfine) fun s a s' hi hstep =>
      hi.step hperm hstep.1 hstep.2.1 hstep.2.2
  intro t hop hdone
  have hst := hi.stands t
  have hserved : ∀ τ, (s.service t).prog.wp (semantics host).handle
      (fun _ s => Served (OneBody request σ₀) (request t) s.2) (τ, (s.service t).loc) →
      DeliversWhole (OneBody request σ₀) (request t).payload (request t).loc
        (s.service t).loc := by
    intro τ hwp
    rw [hdone, Program.wp_ret] at hwp
    exact hwp hop
  cases hst with
  | ahead hvisit hlog hends =>
    exact hserved σ₀ (Program.wp_mono (hends σ₀ ⟨whole_start request σ₀ _, rfl⟩) fun _ _ h => h.2)
  | found hvisit hlog hcur hends =>
    rw [hdone] at hvisit
    exact absurd rfl hvisit
  | within m hvisit hlog hrests hphase hends =>
    rw [hdone] at hrests
    exact absurd trivial hrests
  | done hrests hends => exact hserved σ₀ (hends σ₀)

/-- The other handlers have not opened a window yet, or they have returned. -/
def Unshared (host : Host) (s : Workers.State P T) : Label T → Prop
  | .wake _ => True
  | .call t _ => ∀ u, u ≠ t →
      entered host (s.service u).log = none ∨ (s.service u).prog.result = some ()

instance (host : Host) (s : Workers.State P T) (a : Label T) : Decidable (Unshared host s a) :=
  match a with
  | .wake _ => isTrue trivial
  | .call t _ => inferInstanceAs (Decidable (∀ u, u ≠ t →
      entered host (s.service u).log = none ∨ (s.service u).prog.result = some ()))

omit [DecidableEq P] [DecidableEq T] [Fintype P] [Fintype T] in
theorem clearNext_of_unshared {a : Label T} (h : Unshared host s a) : ClearNext host proc s a := by
  cases a with
  | wake t => trivial
  | call t malloc =>
    rintro e - n m - u hproc m' ⟨hlog, hrests⟩
    rcases h u fun hu => hproc (congrArg proc hu) with hnone | hret
    · rw [hnone] at hlog
      cases hlog
    · rw [Program.result_eq_some.mp hret] at hrests
      exact absurd trivial hrests

end Runs

/-- An upload in one process and a download of the same file in another. -/
def sampleRequest (upload : Bool) : Request :=
  if upload then plainRequest 5 opReqUpload (uploadPayload [0x61] [1, 2])
  else plainRequest 6 opReqDownload (namePayload [0x61])

theorem sampleRequest_ok (upload : Bool) :
    (sampleRequest upload).Complete ∧ ((sampleRequest upload).header.opcode = opReqUpload ∨
      (sampleRequest upload).header.opcode = opReqDownload) := by
  unfold Request.Complete
  cases upload <;> decide

/-- The download opens the file, the upload replaces its content, the download reads it. -/
def replaced : List (Label Bool) :=
  List.replicate 4 (.call false (some 1)) ++ List.replicate 3 (.call true (some 1)) ++
    List.replicate 12 (.call true (some 2)) ++ List.replicate 11 (.call false (some 2))

theorem replaced_returns :
    ((follow (guarded (next sampleHost id) fun s a => a.Allocates ∧ Unshared sampleHost s a)
      (start sampleHost sampleRequest sampleFile) replaced).map fun s =>
        ((s.service false).prog.result, (s.service false).loc.sent)) =
      some (some (), fileFrame 0 [1, 2]) := by
  decide +kernel

theorem downloads_whole_apart_replaced :
    ∃ s : Workers.State Bool Bool,
      follow (next sampleHost id) (start sampleHost sampleRequest sampleFile) replaced = some s ∧
      DeliversWhole (OneBody sampleRequest sampleFile) (namePayload [0x61]) {}
        (s.service false).loc := by
  obtain ⟨s, hs, hend⟩ := Option.map_eq_some_iff.mp replaced_returns
  obtain ⟨hreturned, -⟩ := Prod.mk.inj hend
  have hrun : Run (Where (Computes (next sampleHost id))
      fun s a _ => a.Allocates ∧ ClearNext sampleHost id s a)
      (start sampleHost sampleRequest sampleFile) replaced s :=
    (run_of_guarded hs).mono fun s a s' hstep =>
      ⟨hstep.1, hstep.2.1, clearNext_of_unshared hstep.2.2⟩
  refine ⟨s, follow_of_guarded hs, ?_⟩
  refine downloads_whole_apart sampleHost (fun _ _ => rfl) id sampleRequest sampleFile
    sampleRequest_ok ?_ hrun false rfl (Program.result_eq_some.mp hreturned)
  intro upload
  unfold Delivers
  cases upload <;> exact ⟨⟨nofun, nofun⟩, nofun⟩

/-- The download takes the size between the truncation and the write. -/
def truncated : List (Label Bool) :=
  List.replicate 5 (.call true (some 1)) ++ List.replicate 2 (.call false (some 1)) ++
    List.replicate 10 (.call false (some 2))

theorem truncated_returns :
    ((follow (guarded (next sampleHost id) fun _ a => a.Allocates)
      (start sampleHost sampleRequest sampleFile) truncated).map fun s =>
        ((s.service false).prog.result, (s.service false).loc.sent)) =
      some (some (), fileFrame 0 []) := by
  decide +kernel

theorem fileFrame_length (us : UInt64) (c : Bytes) : (fileFrame us c).length = 24 + c.length := by
  simp only [fileFrame, frame, List.length_append, serializeHeader_length, nervfsHeaderSize,
    writeU64, BigEndian.toBytes_length]
  omega

theorem sample_not_empty : ¬ OneBody sampleRequest sampleFile [0x61] [] := by
  rintro (hcontent | ⟨upload, hop, hfields⟩)
  · exact absurd hcontent (by decide)
  · cases upload with
    | true =>
      have hbody : uploadFields (sampleRequest true).payload = .ok ([0x61], [1, 2]) := by rfl
      rw [hbody] at hfields
      cases hfields
    | false => exact absurd hop (by decide)

/-- A download in another process may announce and send an empty file that nobody stored. -/
theorem download_sees_truncation :
    ¬ ∀ (host : Host) (request : Bool → Request) (σ₀ : Bytes → Node) (ls : List (Label Bool))
      (s : Workers.State Bool Bool),
      (∀ kind mode, host.permits kind mode = true) →
      (∀ t, (request t).Complete ∧ ((request t).header.opcode = opReqUpload ∨
        (request t).header.opcode = opReqDownload)) →
      (∀ t, (request t).outcomes = {}) →
      Run (Where (Computes (next host id)) fun _ a _ => a.Allocates)
        (start host request σ₀) ls s →
      ∀ t, (request t).header.opcode = opReqDownload → (s.service t).prog = .ret () →
        DeliversWhole (OneBody request σ₀) (request t).payload (request t).loc
          (s.service t).loc := by
  intro h
  obtain ⟨s, hs, hend⟩ := Option.map_eq_some_iff.mp truncated_returns
  obtain ⟨hreturned, hsent⟩ := Prod.mk.inj hend
  have hwhole := h sampleHost sampleRequest sampleFile truncated s (fun _ _ => rfl)
    sampleRequest_ok (fun upload => by cases upload <;> rfl) (run_of_guarded hs) false rfl
    (Program.result_eq_some.mp hreturned)
  have hopcode : responseOpcode (sampleRequest false).loc (s.service false).loc =
      some opRespFileData := responseOpcode_frame (u := 0) hsent
  obtain ⟨name, c, us, hfield, hbody, hframe⟩ := hwhole hopcode
  have hname : name = [0x61] := by
    have hpayload : nameField msgDownloadTooShort msgDownloadMalformed
        (sampleRequest false).payload = .ok [0x61] := by rfl
    rw [hpayload] at hfield
    exact (Except.ok.inj hfield).symm
  have hempty : c = [] := by
    have hlen := congrArg List.length (hsent.symm.trans hframe)
    have hnil : (sampleRequest false).loc.sent = [] := rfl
    rw [hnil, List.nil_append, fileFrame_length, fileFrame_length] at hlen
    exact List.eq_nil_of_length_eq_zero (by simpa using hlen)
  rw [hname, hempty] at hbody
  exact sample_not_empty hbody

end NervFS.SharedDirectory
