import UltraSql.Lib.Machine

/-!
# Threads over a shared state

A `Program` says what one atomic section of a thread does to the shared state and to the thread's
own local state. `n` threads of a program form a `Machine` whose actions name the thread that
moves, so its runs are the interleavings of the threads' sections.

**Rule (`Program.reach_inv`).** Suppose a predicate `G` of the shared state, a predicate `I` of
the shared state and one local state, and a symmetric relation `D` between the local states of
two threads. If every step keeps `G` and `I` of the thread that moves, and also `I` of any other
thread and its `D` to the thread that moves, then all three hold in every reachable state. The
last obligation is freedom from interference. `Program.reach_inv_of` lets both obligations use
what the condition on the run's steps says, and `Program.reach_inv_crash` is the rule for threads
that a crash may stop at any point.
-/

/-- What one section of a thread does. -/
structure Program (σ ℓ α : Type*) where
  step : σ → ℓ → α → Option (σ × ℓ)

namespace Program

open Function (update update_of_ne)

variable {σ ℓ α : Type*}

/-- The shared state and the local state of each of `n` threads. -/
structure State (σ ℓ : Type*) (n : ℕ) where
  shared : σ
  loc : Fin n → ℓ

variable (P : Program σ ℓ α) {n : ℕ}

/-- `n` threads started in the same local state. -/
def machine (n : ℕ) (shared : σ) (start : ℓ) : Machine (State σ ℓ n) (Fin n × α) where
  init := { shared := shared, loc := fun _ => start }
  step s a :=
    match P.step s.shared (s.loc a.1) a.2 with
    | some (sh, l) => some { shared := sh, loc := update s.loc a.1 l }
    | none => none

variable {P} {sh₀ : σ} {l₀ : ℓ} {C : State σ ℓ n → Fin n × α → Prop}

theorem machine_step {s s' : State σ ℓ n} {i : Fin n} {a : α}
    (h : (P.machine n sh₀ l₀).step s (i, a) = some s') :
    ∃ sh l, P.step s.shared (s.loc i) a = some (sh, l) ∧
      s' = { shared := sh, loc := update s.loc i l } := by
  simp only [machine] at h
  split at h
  · rename_i sh l hstep
    exact ⟨sh, l, hstep, (Option.some.inj h).symm⟩
  · cases h

/-- The three parts of an invariant of threads. -/
structure Inv (G : σ → Prop) (I : σ → ℓ → Prop) (D : ℓ → ℓ → Prop) (s : State σ ℓ n) : Prop where
  shared : G s.shared
  loc : ∀ i, I s.shared (s.loc i)
  pair : ∀ i j, i ≠ j → D (s.loc i) (s.loc j)

/-- What has to be shown of one step. `L` is what the condition on steps says of the thread that
moves, `E` what it says of that thread and any other one. -/
structure Rule (P : Program σ ℓ α) (G : σ → Prop) (I : σ → ℓ → Prop) (D : ℓ → ℓ → Prop)
    (L : σ → ℓ → α → Prop) (E : σ → ℓ → α → ℓ → Prop) : Prop where
  symm : ∀ l k, D l k → D k l
  loc : ∀ sh l a sh' l', G sh → I sh l → L sh l a → P.step sh l a = some (sh', l') →
    G sh' ∧ I sh' l'
  other : ∀ sh l a sh' l' k, G sh → I sh l → I sh k → D l k → L sh l a → E sh l a k →
    P.step sh l a = some (sh', l') → I sh' k ∧ D l' k

section

variable {G : σ → Prop} {I : σ → ℓ → Prop} {D : ℓ → ℓ → Prop} {L : σ → ℓ → α → Prop}
  {E : σ → ℓ → α → ℓ → Prop} {s : State σ ℓ n}

theorem Inv.step (hR : Rule P G I D L E) (hs : Inv G I D s) {i : Fin n} {a : α} {sh : σ} {l : ℓ}
    (hL : L s.shared (s.loc i) a) (hE : ∀ j, j ≠ i → E s.shared (s.loc i) a (s.loc j))
    (hl : P.step s.shared (s.loc i) a = some (sh, l)) :
    Inv G I D { shared := sh, loc := update s.loc i l } := by
  have hi := hR.loc _ _ _ _ _ hs.shared (hs.loc i) hL hl
  have hj : ∀ j, j ≠ i → I sh (s.loc j) ∧ D l (s.loc j) := fun j hne =>
    hR.other _ _ _ _ _ _ hs.shared (hs.loc i) (hs.loc j) (hs.pair i j (Ne.symm hne)) hL (hE j hne)
      hl
  refine ⟨hi.1, fun j => ?_, fun j k hjk => ?_⟩
  · by_cases hji : j = i
    · subst hji
      simpa using hi.2
    · simpa [update_of_ne hji] using (hj j hji).1
  · by_cases hji : j = i
    · subst hji
      simpa [update_of_ne (Ne.symm hjk)] using (hj k (Ne.symm hjk)).2
    · by_cases hki : k = i
      · subst hki
        simpa [update_of_ne hji] using hR.symm _ _ (hj j hji).2
      · simpa [update_of_ne hji, update_of_ne hki] using hs.pair j k hjk

/-- **The interference rule.** -/
theorem reach_inv_of (hR : Rule P G I D L E)
    (hC : ∀ s i a, C s (i, a) →
      L s.shared (s.loc i) a ∧ ∀ j, j ≠ i → E s.shared (s.loc i) a (s.loc j))
    (hG₀ : G sh₀) (hI₀ : I sh₀ l₀) (hD₀ : D l₀ l₀) (h : (P.machine n sh₀ l₀).Reach C s) :
    Inv G I D s := by
  refine h.invariant ⟨hG₀, fun _ => hI₀, fun _ _ _ => hD₀⟩ ?_
  rintro s ⟨i, a⟩ s' - hs hc hstep
  obtain ⟨sh, l, hl, rfl⟩ := machine_step hstep
  obtain ⟨hL, hE⟩ := hC s i a hc
  exact hs.step hR hL hE hl

/-- The interference rule for runs whose condition is of no use to it. -/
theorem reach_inv (hD : ∀ l k, D l k → D k l) (hG₀ : G sh₀) (hI₀ : I sh₀ l₀) (hD₀ : D l₀ l₀)
    (hloc : ∀ sh l a sh' l', G sh → I sh l → P.step sh l a = some (sh', l') → G sh' ∧ I sh' l')
    (hother : ∀ sh l a sh' l' k, G sh → I sh l → I sh k → D l k →
      P.step sh l a = some (sh', l') → I sh' k ∧ D l' k)
    (h : (P.machine n sh₀ l₀).Reach C s) : Inv G I D s := by
  have hR : Rule P G I D (fun _ _ _ => True) fun _ _ _ _ => True :=
    ⟨hD, fun sh l a sh' l' hG hl _ hstep => hloc sh l a sh' l' hG hl hstep,
      fun sh l a sh' l' k hG hl hk hd _ _ hstep => hother sh l a sh' l' k hG hl hk hd hstep⟩
  exact reach_inv_of hR (fun _ _ _ _ => ⟨trivial, fun _ _ => trivial⟩) hG₀ hI₀ hD₀ h

end

/-! ## Crashes -/

section Crash

variable {κ : Type*} (P)

/-- `n` threads that a crash may stop at any point. It leaves what `crash` makes of the shared
state, and all threads start anew. -/
def crashMachine (crash : σ → κ → Option σ) (n : ℕ) (shared : σ) (start : ℓ) :
    Machine (State σ ℓ n) (Fin n × α ⊕ κ) where
  init := { shared := shared, loc := fun _ => start }
  step s a :=
    match a with
    | .inl (i, a) =>
      match P.step s.shared (s.loc i) a with
      | some (sh, l) => some { shared := sh, loc := update s.loc i l }
      | none => none
    | .inr k => (crash s.shared k).map fun sh => { shared := sh, loc := fun _ => start }

variable {P} {crash : σ → κ → Option σ} {C' : State σ ℓ n → Fin n × α ⊕ κ → Prop}
  {G : σ → Prop} {I : σ → ℓ → Prop} {D : ℓ → ℓ → Prop} {L : σ → ℓ → α → Prop}
  {E : σ → ℓ → α → ℓ → Prop} {s : State σ ℓ n}

/-- **The interference rule with crashes.** -/
theorem reach_inv_crash (hR : Rule P G I D L E)
    (hC : ∀ s i a, C' s (.inl (i, a)) →
      L s.shared (s.loc i) a ∧ ∀ j, j ≠ i → E s.shared (s.loc i) a (s.loc j))
    (hcrash : ∀ s : State σ ℓ n, ∀ k sh', Inv G I D s → crash s.shared k = some sh' →
      G sh' ∧ I sh' l₀)
    (hG₀ : G sh₀) (hI₀ : I sh₀ l₀) (hD₀ : D l₀ l₀)
    (h : (P.crashMachine crash n sh₀ l₀).Reach C' s) : Inv G I D s := by
  refine h.invariant ⟨hG₀, fun _ => hI₀, fun _ _ _ => hD₀⟩ ?_
  intro s a s' _ hs hc hstep
  cases a with
  | inl a =>
    obtain ⟨i, a⟩ := a
    simp only [crashMachine] at hstep
    split at hstep
    · rename_i sh l hl
      obtain rfl := Option.some.inj hstep
      obtain ⟨hL, hE⟩ := hC s i a hc
      exact hs.step hR hL hE hl
    · cases hstep
  | inr k =>
    obtain ⟨sh', hk, rfl⟩ := Option.map_eq_some_iff.1 hstep
    obtain ⟨hG, hI⟩ := hcrash s k sh' hs hk
    exact ⟨hG, fun _ => hI, fun _ _ _ => hD₀⟩

end Crash

end Program
