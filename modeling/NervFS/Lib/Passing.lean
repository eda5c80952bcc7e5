import NervFS.Lib.KeyedStore

/-!
What a component of a keyed store may be while the threads run. `N` says what it is when
nobody holds its key exclusively, `U` what it may be besides while somebody does. A program
settles if its section, entered with a settled component, passes through such values only
and leaves a settled one. When all programs do, every reachable store is as `N` and `U` say.
-/
namespace KeyedStore

open Programs Transitions Semantics

variable {E : Type} {R : E → Type} {K V L T α : Type}

namespace Semantics
variable (M : Semantics E R K V L) (N U : K → V → Prop)

/-- The rest of a section, and of the program after it. -/
def SettlesIn (key : K) : Program E R α → V → L → Prop
  | .ret _, _, _ => True
  | .stuck, _, _ => True
  | .call e k, v, l =>
    match M.role e with
    | .own => SettlesIn key (k (M.own e l).1) v (M.own e l).2
    | .access _ _ =>
      (N key (M.touch e v l).2.1 ∨ U key (M.touch e v l).2.1) ∧
        SettlesIn key (k (M.touch e v l).1) (M.touch e v l).2.1 (M.touch e v l).2.2
    | .release _ _ => N key v
    | _ => False

/-- A program that has not entered its section yet. -/
def Settles : Program E R α → L → Prop
  | .ret _, _ => True
  | .stuck, _ => True
  | .call e k, l =>
    match M.role e with
    | .own => Settles (k (M.own e l).1) (M.own e l).2
    | .acquire key _ => ∀ v, N key v → M.SettlesIn N U key (k (M.own e l).1) v (M.own e l).2
    | _ => False

variable {M N U}
variable {e : E} {k : R e → Program E R α} {key : K} {v : V} {l : L}

theorem settles_own (hr : M.role e = .own) :
    M.Settles N U (.call e k) l ↔ M.Settles N U (k (M.own e l).1) (M.own e l).2 := by
  simp only [Settles, hr]

theorem settles_acquire {m : Mode} (hr : M.role e = .acquire key m) :
    M.Settles N U (.call e k) l ↔
      ∀ v, N key v → M.SettlesIn N U key (k (M.own e l).1) v (M.own e l).2 := by
  simp only [Settles, hr]

theorem settlesIn_own (hr : M.role e = .own) :
    M.SettlesIn N U key (.call e k) v l ↔
      M.SettlesIn N U key (k (M.own e l).1) v (M.own e l).2 := by
  simp only [SettlesIn, hr]

theorem settlesIn_access {key' : K} {m : Mode} (hr : M.role e = .access key' m) :
    M.SettlesIn N U key (.call e k) v l ↔
      (N key (M.touch e v l).2.1 ∨ U key (M.touch e v l).2.1) ∧
        M.SettlesIn N U key (k (M.touch e v l).1) (M.touch e v l).2.1 (M.touch e v l).2.2 := by
  simp only [SettlesIn, hr]

theorem settlesIn_release {key' : K} {m : Mode} (hr : M.role e = .release key' m) :
    M.SettlesIn N U key (.call e k) v l ↔ N key v := by
  simp only [SettlesIn, hr]

theorem settles_of_own {p : Program E R α} (hp : p.All fun e => M.role e = .own) (l : L) :
    M.Settles N U p l := by
  induction p generalizing l with
  | ret a => trivial
  | stuck => trivial
  | call e k ih => exact (settles_own hp.1).mpr (ih _ (hp.2 _) _)

theorem settlesIn_of_shared {p : Program E R α} (hp : M.Sectioned (.inside key .shared) p)
    (hv : N key v) (l : L) : M.SettlesIn N U key p v l := by
  induction p generalizing l with
  | ret a => trivial
  | stuck => trivial
  | call e k ih =>
    cases hr : M.role e with
    | own => exact (settlesIn_own hr).mpr (ih _ (sectioned_own hp hr l) _)
    | acquire key' m => exact nomatch (sectioned_acquire hp hr l).1
    | release key' m => exact (settlesIn_release hr).mpr hv
    | access key' m =>
      obtain ⟨m₁, hc, hm, hsec⟩ := sectioned_access hp hr v l
      cases hc
      refine (settlesIn_access hr).mpr ?_
      rw [touch_of_shared hr hm rfl v l]
      exact ⟨Or.inl hv, ih _ hsec _⟩
    | other => exact absurd hr (sectioned_not_other hp)

theorem Settles.own (hr : M.role e = .own)
    (h : M.Settles N U (k (M.own e l).1) (M.own e l).2) :
    M.Settles N U (Program.perform e >>= k) l := (settles_own hr).mpr h

theorem Settles.acquire {m : Mode} (hr : M.role e = .acquire key m)
    (h : ∀ v, N key v → M.SettlesIn N U key (k (M.own e l).1) v (M.own e l).2) :
    M.Settles N U (Program.perform e >>= k) l := (settles_acquire hr).mpr h

theorem SettlesIn.own (hr : M.role e = .own)
    (h : M.SettlesIn N U key (k (M.own e l).1) v (M.own e l).2) :
    M.SettlesIn N U key (Program.perform e >>= k) v l := (settlesIn_own hr).mpr h

theorem SettlesIn.access {j : K} {m : Mode} (hr : M.role e = .access j m)
    (hv : N key (M.touch e v l).2.1 ∨ U key (M.touch e v l).2.1)
    (h : M.SettlesIn N U key (k (M.touch e v l).1) (M.touch e v l).2.1 (M.touch e v l).2.2) :
    M.SettlesIn N U key (Program.perform e >>= k) v l := (settlesIn_access hr).mpr ⟨hv, h⟩

theorem SettlesIn.release {key' : K} {m : Mode} (hr : M.role e = .release key' m)
    (hv : N key v) : M.SettlesIn N U key (Program.perform e >>= k) v l :=
  (settlesIn_release hr).mpr hv

end Semantics

variable {M : Semantics E R K V L} {N U : K → V → Prop}

/-- What is left of a thread settles the component that it holds. -/
def Settling (M : Semantics E R K V L) (N U : K → V → Prop) (store : K → V)
    (θ : Thread E R K L α) : Prop :=
  match θ.phase with
  | .before => M.Settles N U θ.prog θ.loc
  | .inside key _ => M.SettlesIn N U key θ.prog (store key) θ.loc
  | .after => True

structure Passing (M : Semantics E R K V L) (N U : K → V → Prop) (c : Config E R K V L T α) :
    Prop where
  value : ∀ key, N key (c.store key) ∨
    U key (c.store key) ∧ ∃ t, (c.thread t).phase = .inside key .exclusive
  thread : ∀ t, Settling M N U c.store (c.thread t)

/-- A thread keeps what it settles when the store changes at other keys only. -/
theorem Settling.frame {store store' : K → V} {θ : Thread E R K L α}
    (h : Settling M N U store θ)
    (hkey : ∀ key m, θ.phase = .inside key m → store' key = store key) :
    Settling M N U store' θ := by
  unfold Settling at h ⊢
  cases hph : θ.phase with
  | before => simpa only [hph] using h
  | inside key m =>
    simp only [hph] at h ⊢
    rw [hkey key m hph]
    exact h
  | after => trivial

theorem Passing.settled {c : Config E R K V L T α} (h : Passing M N U c) {key : K}
    (hfree : ∀ t, (c.thread t).phase ≠ .inside key .exclusive) : N key (c.store key) := by
  rcases h.value key with hN | ⟨-, t, ht⟩
  · exact hN
  · exact absurd ht (hfree t)

section Steps
variable [DecidableEq K] [DecidableEq T] {start : T → Program E R α × L} {σ₀ : K → V}
variable {ord : List T} {c c' : Config E R K V L T α} {σs : K → V} {outs : T → Option (α × L)}

omit [DecidableEq K] in
theorem Passing.set (h : Passing M N U c) {t : T} {θ : Thread E R K L α}
    (hθ : Settling M N U c.store θ)
    (hfree : ∀ key, (c.thread t).phase = .inside key .exclusive →
      θ.phase = .inside key .exclusive ∨ N key (c.store key)) :
    Passing M N U (c.set t θ) where
  value key := by
    rcases h.value key with hN | ⟨hU, u, hu⟩
    · exact Or.inl hN
    · by_cases hut : u = t
      · subst hut
        refine (hfree key hu).symm.imp id fun hθ => ⟨hU, u, ?_⟩
        rw [show (c.set u θ).thread u = θ from Function.update_self ..]
        exact hθ
      · refine Or.inr ⟨hU, u, ?_⟩
        rw [show (c.set t θ).thread u = c.thread u from Function.update_of_ne hut ..]
        exact hu
  thread u := by
    by_cases hut : u = t
    · subst hut
      rw [show (c.set u θ).thread u = θ from Function.update_self ..]
      exact hθ
    · rw [show (c.set t θ).thread u = c.thread u from Function.update_of_ne hut ..]
      exact h.thread u

theorem Passing.step (h : Passing M N U c) (hi : Inv M start σ₀ ord c σs outs)
    {a : T × Role K} (hstep : Step M c a c') : Passing M N U c' := by
  cases hstep with
  | @own t e k hp hr =>
    have ht := h.thread t
    refine h.set ?_ fun key hkey => Or.inl hkey
    unfold Settling at ht ⊢
    cases hph : (c.thread t).phase with
    | before =>
      simp only [hph, hp] at ht ⊢
      exact (settles_own hr).mp ht
    | inside key m =>
      simp only [hph, hp] at ht ⊢
      exact (settlesIn_own hr).mp ht
    | after => trivial
  | @acquire t e k key m hp hr hfree =>
    have ht := h.thread t
    obtain ⟨hsec, -⟩ := hi.thread t
    rw [hp] at hsec
    obtain ⟨hph, -, -⟩ := sectioned_acquire hsec hr (c.thread t).loc
    have hN : N key (c.store key) :=
      h.settled fun u hu => absurd (hfree u .exclusive hu).2 (by decide)
    refine h.set ?_ fun key' hkey' => nomatch hph.symm.trans hkey'
    simp only [Settling, hph, hp] at ht ⊢
    exact (settles_acquire hr).mp ht _ hN
  | @release t e k key m hp hr =>
    have ht := h.thread t
    obtain ⟨hsec, -⟩ := hi.thread t
    rw [hp] at hsec
    obtain ⟨hph, -⟩ := sectioned_release hsec hr (c.thread t).loc
    simp only [Settling, hph, hp] at ht
    have hN : N key (c.store key) := (settlesIn_release hr).mp ht
    refine h.set trivial fun key' hkey' => ?_
    cases hph.symm.trans hkey'
    exact Or.inr hN
  | @access t e k key m hp hr =>
    have ht := h.thread t
    obtain ⟨hsec, -⟩ := hi.thread t
    rw [hp] at hsec
    obtain ⟨m₁, hph, hm, -⟩ := sectioned_access hsec hr (c.store key) (c.thread t).loc
    simp only [Settling, hph, hp] at ht
    obtain ⟨hvalue, hrest⟩ := (settlesIn_access hr).mp ht
    have hshared : m₁ = .shared → Function.update c.store key
        (M.touch e (c.store key) (c.thread t).loc).2.1 = c.store := by
      intro hs
      rw [touch_of_shared hr hm hs, Function.update_eq_self]
    have hphase : ∀ u, (Function.update c.thread t
        ⟨k (M.touch e (c.store key) (c.thread t).loc).1,
          (M.touch e (c.store key) (c.thread t).loc).2.2, (c.thread t).phase⟩ u).phase =
        (c.thread u).phase := by
      intro u
      by_cases hut : u = t
      · subst hut
        rw [Function.update_self]
      · rw [Function.update_of_ne hut]
    refine ⟨fun key' => ?_, fun u => ?_⟩
    · simp only [hphase]
      cases hm₁ : m₁ with
      | shared =>
        rw [hshared hm₁]
        exact h.value key'
      | exclusive =>
        by_cases hk : key' = key
        · subst hk
          rw [Function.update_self]
          exact hvalue.imp id fun hU => ⟨hU, t, hm₁ ▸ hph⟩
        · rw [Function.update_of_ne hk]
          exact h.value key'
    · by_cases hut : u = t
      · subst hut
        dsimp only
        rw [Function.update_self]
        simp only [Settling, hph, Function.update_self]
        exact hrest
      · dsimp only
        rw [Function.update_of_ne hut]
        refine (h.thread u).frame fun key' m' hu => ?_
        by_cases hk : key' = key
        · subst hk
          rw [hshared (hi.exclusion t u key' m₁ m' (Ne.symm hut) hph hu).1]
        · exact Function.update_of_ne hk ..

/-- In every reachable store each component is settled, or is held exclusively and is one of
the values that its holder passes through. -/
theorem passing_run (hs : ∀ t, M.Sectioned .before (start t).1)
    (hsettles : ∀ t, M.Settles N U (start t).1 (start t).2) (h0 : ∀ key, N key (σ₀ key))
    {ls : List (T × Role K)} (h : Run (Step M) (initial start σ₀) ls c) : Passing M N U c := by
  induction h with
  | nil => exact ⟨fun key => Or.inl (h0 key), fun t => hsettles t⟩
  | snoc hrun hstep ih =>
    obtain ⟨σs, outs, hi⟩ := reachable_inv hs hrun
    exact ih.step hi hstep

end Steps

end KeyedStore
