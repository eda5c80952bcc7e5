import NervFS.Lib.KeyedStore

/-!
The order in which the threads of a keyed store take effect, told while they run. A thread
takes its place when it acquires its key, or when it returns without having acquired one,
so the order grows at its end and never changes otherwise. What a thread returns is what
the serial run in that order has recorded for it.
-/
namespace KeyedStore

open Programs Transitions Semantics

variable {E : Type} {R : E → Type} {K V L T α : Type} [DecidableEq K] [DecidableEq T]
variable {M : Semantics E R K V L} {start : T → Program E R α × L} {σ₀ : K → V}

theorem Serial.unique {ts : List T} {σ σ' : K → V} {outs outs' : T → Option (α × L)}
    (h : Serial M start σ₀ ts σ outs) (h' : Serial M start σ₀ ts σ' outs') :
    σ' = σ ∧ outs' = outs := by
  induction h generalizing σ' outs' with
  | nil =>
    generalize hts : ([] : List T) = ts at h'
    cases h' with
    | nil => exact ⟨rfl, rfl⟩
    | snoc => exact absurd hts.symm (List.append_ne_nil_of_right_ne_nil _ (List.cons_ne_nil _ _))
  | @snoc ts σ outs t a τ l h hrun ih =>
    generalize hts : ts ++ [t] = us at h'
    cases h' with
    | nil => exact absurd hts (List.append_ne_nil_of_right_ne_nil _ (List.cons_ne_nil _ _))
    | snoc h' hrun' =>
      obtain ⟨rfl, hlast⟩ := List.append_inj' hts rfl
      obtain rfl := (List.cons.inj hlast).1
      obtain ⟨rfl, rfl⟩ := ih h'
      rw [hrun] at hrun'
      cases hrun'
      exact ⟨rfl, rfl⟩

theorem Serial.last {ts : List T} {t : T} {σ : K → V} {outs : T → Option (α × L)}
    (h : Serial M start σ₀ (ts ++ [t]) σ outs) : ∃ σ₁ outs₁ a l',
      Serial M start σ₀ ts σ₁ outs₁ ∧
      (start t).1.run M.handle (σ₁, (start t).2) = some (a, σ, l') ∧
      outs = Function.update outs₁ t (some (a, l')) := by
  generalize hts : ts ++ [t] = us at h
  cases h with
  | nil => exact absurd hts (List.append_ne_nil_of_right_ne_nil _ (List.cons_ne_nil _ _))
  | snoc h hrun =>
    obtain ⟨rfl, hlast⟩ := List.append_inj' hts rfl
    obtain rfl := (List.cons.inj hlast).1
    exact ⟨_, _, _, _, h, hrun, rfl⟩

/-- The threads have taken effect in the given order: each has acquired its key or returned,
the acquisitions `ord` are in it as they were made, and what has returned did so with the
result that the serial run has recorded. -/
structure Linearizes (M : Semantics E R K V L) (start : T → Program E R α × L) (σ₀ : K → V)
    (ord order : List T) (c : Config E R K V L T α) (σs : K → V) (outs : T → Option (α × L)) :
    Prop where
  standing : ∃ out, Inv M start σ₀ ord c σs out ∧ ∀ t ∈ ord, outs t = out t
  acquired : ord.Sublist order
  serial : Serial M start σ₀ order σs outs
  nodup : order.Nodup
  begun : ∀ t ∈ order, t ∈ ord ∨ ∃ a, (c.thread t).prog = .ret a
  returned : ∀ t a, (c.thread t).prog = .ret a → t ∈ order ∧ outs t = some (a, (c.thread t).loc)

section Steps
variable {ord order : List T} {c c' : Config E R K V L T α} {σs : K → V}
variable {outs : T → Option (α × L)}

theorem initial_linearizes (hs : ∀ t, M.Sectioned .before (start t).1)
    (hcalls : ∀ t a, (start t).1 ≠ .ret a) :
    Linearizes M start σ₀ [] [] (initial start σ₀) σ₀ fun _ => none where
  standing := ⟨_, initial_inv hs, nofun⟩
  acquired := .slnil
  serial := .nil
  nodup := List.nodup_nil
  begun := nofun
  returned t a h := absurd h (hcalls t a)

/-- After a step of one thread, that thread takes its place if it has returned and has
none yet. -/
theorem Linearizes.settle {t : T} {out : T → Option (α × L)} (hi : Inv M start σ₀ ord c' σs out)
    (hagree : ∀ u ∈ ord, outs u = out u) (hsub : ord.Sublist order)
    (hser : Serial M start σ₀ order σs outs) (hnd : order.Nodup) (ht : t ∈ order → t ∈ ord)
    (hbegun : ∀ u ∈ order, u ∈ ord ∨ ∃ a, (c'.thread u).prog = .ret a)
    (hret : ∀ u a, u ≠ t → (c'.thread u).prog = .ret a →
      u ∈ order ∧ outs u = some (a, (c'.thread u).loc)) :
    ∃ more outs', Linearizes M start σ₀ ord (order ++ more) c' σs outs' ∧
      ∀ u ∈ order, outs' u = outs u := by
  have hkeep : (∀ a, (c'.thread t).prog = .ret a →
      t ∈ order ∧ outs t = some (a, (c'.thread t).loc)) →
      ∃ more outs', Linearizes M start σ₀ ord (order ++ more) c' σs outs' ∧
        ∀ u ∈ order, outs' u = outs u := by
    intro hown
    refine ⟨[], outs, ?_, fun _ _ => rfl⟩
    rw [List.append_nil]
    refine ⟨⟨out, hi, hagree⟩, hsub, hser, hnd, hbegun, fun u a ha => ?_⟩
    by_cases hu : u = t
    · subst hu
      exact hown a ha
    · exact hret u a hu ha
  cases hprog : (c'.thread t).prog with
  | stuck => exact hkeep fun a ha => nomatch hprog.symm.trans ha
  | call e k => exact hkeep fun a ha => nomatch hprog.symm.trans ha
  | ret a =>
    obtain ⟨hsec, h2⟩ := hi.thread t
    rw [hprog] at hsec
    cases hph : (c'.thread t).phase with
    | inside key m => exact absurd hph (hsec key m)
    | after =>
      simp only [hph, hprog] at h2
      obtain ⟨hmem, b, l', hout, hrun⟩ := h2
      obtain ⟨rfl, -, rfl⟩ : a = b ∧ σs = σs ∧ (c'.thread t).loc = l' := by simpa using hrun σs
      refine hkeep fun a' ha => ?_
      cases hprog.symm.trans ha
      exact ⟨hsub.subset hmem, (hagree t hmem).trans hout⟩
    | before =>
      -- it never acquired a key, so it would have returned the same from any store
      simp only [hph, hprog] at h2
      obtain ⟨hnot, hrun⟩ := h2
      have hnew : t ∉ order := fun hmem => hnot (ht hmem)
      have hother : ∀ u ∈ order, Function.update outs t (some (a, (c'.thread t).loc)) u = outs u :=
        fun u hu => Function.update_of_ne (ne_of_mem_of_not_mem hu hnew) ..
      refine ⟨[t], Function.update outs t (some (a, (c'.thread t).loc)), ?_, hother⟩
      refine ⟨⟨out, hi, fun u hu => (hother u (hsub.subset hu)).trans (hagree u hu)⟩,
        hsub.trans (List.sublist_append_left ..), hser.snoc (hrun σs), ?_, fun u hu => ?_,
        fun u b hb => ?_⟩
      · refine hnd.append (List.nodup_singleton t) ?_
        exact List.disjoint_singleton.mpr hnew
      · rcases List.mem_append.mp hu with hu | hu
        · exact hbegun u hu
        · obtain rfl := List.mem_singleton.mp hu
          exact Or.inr ⟨a, hprog⟩
      · by_cases hu : u = t
        · subst hu
          cases hprog.symm.trans hb
          exact ⟨List.mem_append_right _ (List.mem_singleton_self u), Function.update_self ..⟩
        · obtain ⟨hmem, hout⟩ := hret u b hu hb
          exact ⟨List.mem_append_left _ hmem, (hother u hmem).trans hout⟩

/-- The place of a thread is settled by its own steps, and kept by those of the others. -/
theorem Linearizes.step {a : T × Role K} (h : Linearizes M start σ₀ ord order c σs outs)
    (hstep : Step M c a c') :
    ∃ more σs' outs', Linearizes M start σ₀ (ord ++ acquisitions [a]) (order ++ more) c' σs' outs' ∧
      ∀ t ∈ order, outs' t = outs t := by
  obtain ⟨out, hi, hagree⟩ := h.standing
  -- the thread that moves has not returned, so it has its place by an acquisition only
  have hplace : ∀ {t e k}, (c.thread t).prog = .call e k → t ∈ order → t ∈ ord := by
    intro t e k hp ht
    refine (h.begun t ht).resolve_right ?_
    rintro ⟨b, hb⟩
    cases hp.symm.trans hb
  have hquiet : ∀ {t e k θ store'}, (c.thread t).prog = .call e k →
      Inv M start σ₀ ord ⟨store', Function.update c.thread t θ⟩ σs out →
      ∃ more σs' outs', Linearizes M start σ₀ ord (order ++ more)
        ⟨store', Function.update c.thread t θ⟩ σs' outs' ∧ ∀ t ∈ order, outs' t = outs t := by
    intro t e k θ store' hp hi'
    have hother : ∀ u, u ≠ t → Function.update c.thread t θ u = c.thread u :=
      fun u hu => Function.update_of_ne hu ..
    have hbegun : ∀ u ∈ order,
        u ∈ ord ∨ ∃ a, (Function.update c.thread t θ u).prog = .ret a := by
      intro u hu
      by_cases hut : u = t
      · exact Or.inl (hut ▸ hplace hp (hut ▸ hu))
      · rw [hother u hut]
        exact h.begun u hu
    have hret : ∀ u a, u ≠ t → (Function.update c.thread t θ u).prog = .ret a →
        u ∈ order ∧ outs u = some (a, (Function.update c.thread t θ u).loc) := by
      intro u b hu hb
      rw [hother u hu] at hb ⊢
      exact h.returned u b hb
    obtain ⟨more, outs', hlin, hsame⟩ := Linearizes.settle hi' hagree h.acquired h.serial h.nodup
      (hplace hp) hbegun hret
    exact ⟨more, σs, outs', hlin, hsame⟩
  cases hstep with
  | own hp hr =>
    simp only [acquisitions, List.append_nil]
    exact hquiet hp (hi.own hp hr)
  | release hp hr =>
    simp only [acquisitions, List.append_nil]
    exact hquiet hp (hi.release hp hr)
  | access hp hr =>
    simp only [acquisitions, List.append_nil]
    exact hquiet hp (hi.access hp hr)
  | @acquire t e k key m hp hr hfree =>
    obtain ⟨σs', out', hi'⟩ := hi.acquire hp hr hfree
    obtain ⟨σ₁, out₁, b, l', hser, hrun, hout⟩ := hi'.serial.last
    obtain ⟨rfl, rfl⟩ := hi.serial.unique hser
    have hfresh : t ∉ ord := by
      have hnodup := hi'.nodup
      rw [List.nodup_append] at hnodup
      exact fun ht => hnodup.2.2 t ht t (List.mem_singleton_self t) rfl
    have hnew : t ∉ order := fun ht => hfresh (hplace hp ht)
    have hother : ∀ u ∈ order, Function.update outs t (some (b, l')) u = outs u :=
      fun u hu => Function.update_of_ne (ne_of_mem_of_not_mem hu hnew) ..
    refine ⟨[t], σs', Function.update outs t (some (b, l')), ?_, hother⟩
    refine ⟨⟨out', hi', fun u hu => ?_⟩, h.acquired.append_right [t], h.serial.snoc hrun, ?_,
      fun u hu => ?_, fun u a ha => ?_⟩
    · rw [hout]
      rcases List.mem_append.mp hu with hu | hu
      · rw [hother u (h.acquired.subset hu),
          Function.update_of_ne (ne_of_mem_of_not_mem hu hfresh)]
        exact hagree u hu
      · obtain rfl := List.mem_singleton.mp hu
        rw [Function.update_self, Function.update_self]
    · refine h.nodup.append (List.nodup_singleton t) ?_
      exact List.disjoint_singleton.mpr hnew
    · rcases List.mem_append.mp hu with hu | hu
      · have hut : u ≠ t := ne_of_mem_of_not_mem hu hnew
        refine (h.begun u hu).imp (List.mem_append_left _) ?_
        rw [show (c.set t _).thread u = c.thread u from Function.update_of_ne hut ..]
        exact id
      · exact Or.inl (List.mem_append_right _ hu)
    · by_cases hut : u = t
      · subst hut
        have hsec := (hi'.thread u).1
        simp only [Config.set, Function.update_self] at hsec ha
        rw [ha] at hsec
        exact absurd rfl (hsec key m)
      · rw [show (c.set t _).thread u = c.thread u from Function.update_of_ne hut ..] at ha ⊢
        obtain ⟨hmem, hres⟩ := h.returned u a ha
        exact ⟨List.mem_append_left _ hmem, (hother u hmem).trans hres⟩

/-- In a run the order grows at its end, and what it has recorded stays. -/
theorem Linearizes.run (h : Linearizes M start σ₀ ord order c σs outs) {ls : List (T × Role K)}
    (hrun : Run (Step M) c ls c') :
    ∃ more σs' outs', Linearizes M start σ₀ (ord ++ acquisitions ls) (order ++ more) c' σs' outs' ∧
      ∀ t ∈ order, outs' t = outs t := by
  induction hrun with
  | nil =>
    refine ⟨[], σs, outs, ?_, fun _ _ => rfl⟩
    rw [List.append_nil, acquisitions, List.append_nil]
    exact h
  | snoc _ hstep ih =>
    obtain ⟨more, σ₁, outs₁, h₁, hsame⟩ := ih
    obtain ⟨more', σ₂, outs₂, h₂, hsame'⟩ := h₁.step hstep
    refine ⟨more ++ more', σ₂, outs₂, ?_, fun t ht => ?_⟩
    · rw [acquisitions_append, ← List.append_assoc, ← List.append_assoc]
      exact h₂
    · exact (hsame' t (List.mem_append_left _ ht)).trans (hsame t ht)

end Steps

end KeyedStore
