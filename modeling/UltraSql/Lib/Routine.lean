import UltraSql.Lib.Machine

/-!
# Routines: programs made of atomic calls

A `Routine` is a program that makes calls, each of which is one atomic section, and goes on with
their results. A `Server` says what a call does to the shared state and to the state of the
client that makes it. Any number of clients that run one task after another form a `Machine`
whose runs are the interleavings of their calls.

`Server.Sat R A P t Q s l` says that the task `t` of a client can go on from shared state `s` and
own state `l`: whatever the others do in between, as long as they keep the relation `R`, every
call that `t` makes keeps `R` itself and the assertion `A` about the client, and when `t` returns,
`Q` holds. Calls may assume `P`, the side condition on the run's calls.

**Rule (`Server.reach`).** If `A` is stable under `R`, which is reflexive and transitive, and the
task of every command is `Sat`, then in every reachable state `R` relates the first shared state
to the present one and `A` holds of every client.
-/

/-- A program that returns, fails, or makes a call and goes on with its result. -/
inductive Routine (Call : Type → Type) (ε τ : Type) : Type 1
  | ret (v : τ)
  | fail (e : ε)
  | call {ρ : Type} (c : Call ρ) (k : ρ → Routine Call ε τ)

namespace Routine

variable {Call : Type → Type} {ε τ υ : Type}

/-- Go on with what a task returns. -/
def bind : Routine Call ε τ → (τ → Routine Call ε υ) → Routine Call ε υ
  | .ret v, f => f v
  | .fail e, _ => .fail e
  | .call c k, f => .call c fun r => (k r).bind f

instance : Monad (Routine Call ε) where
  pure := .ret
  bind := bind

def perform {ρ : Type} (c : Call ρ) : Routine Call ε ρ := .call c .ret

/-- The call that comes next, if there is one, meets `p`. -/
def NextMeets (p : ∀ ρ, Call ρ → Prop) : Routine Call ε τ → Prop
  | .call c _ => p _ c
  | _ => True

instance (p : ∀ ρ, Call ρ → Prop) [∀ ρ c, Decidable (p ρ c)] :
    DecidablePred (NextMeets p : Routine Call ε τ → Prop)
  | .ret _ => inferInstanceAs (Decidable True)
  | .fail _ => inferInstanceAs (Decidable True)
  | .call c _ => inferInstanceAs (Decidable (p _ c))

/-- A result that may be a failure. -/
def ofExcept : Except ε τ → Routine Call ε τ
  | .ok v => .ret v
  | .error e => .fail e

/-- Run a task for every element of a list. -/
def forEach {α : Type} (f : α → Routine Call ε Unit) : List α → Routine Call ε Unit
  | [] => .ret ()
  | a :: as => (f a).bind fun _ => forEach f as

end Routine

/-- What a call does to the shared state and to its client's own state. `δ` is what it learns from
outside. -/
structure Server (Call : Type → Type) (σ ℓ δ : Type) where
  exec : {ρ : Type} → Call ρ → δ → σ → ℓ → ρ × σ × ℓ

namespace Server

variable {Call : Type → Type} {σ ℓ δ ε τ υ : Type} (S : Server Call σ ℓ δ)
  (R : σ → σ → Prop) (A : σ → ℓ → Prop) (P : σ → ∀ ρ, Call ρ → Prop)

/-- The task can go on from `s` and `l`, and `Q` holds when it returns. -/
def Sat : Routine Call ε τ → (τ → σ → ℓ → Prop) → σ → ℓ → Prop
  | .ret v, Q, s, l => Q v s l
  | .fail _, _, _, _ => True
  | .call c k, Q, s, l => ∀ s' d, R s s' → A s' l → P s' _ c →
      R s' (S.exec c d s' l).2.1 ∧ A (S.exec c d s' l).2.1 (S.exec c d s' l).2.2 ∧
        Sat (k (S.exec c d s' l).1) Q (S.exec c d s' l).2.1 (S.exec c d s' l).2.2

variable {S R A P} {t : Routine Call ε τ} {f : τ → Routine Call ε υ} {Q Q' : τ → σ → ℓ → Prop}
  {Q₂ : υ → σ → ℓ → Prop} {s : σ} {l : ℓ}

/-- **Sequencing.** -/
theorem Sat.bind (h : S.Sat R A P t Q s l)
    (hf : ∀ v s' l', Q v s' l' → S.Sat R A P (f v) Q₂ s' l') :
    S.Sat R A P (t.bind f) Q₂ s l := by
  induction t generalizing s l with
  | ret v => exact hf _ _ _ h
  | fail e => trivial
  | call c k ih =>
    intro s' d hR hA hP
    obtain ⟨hR', hA', hk⟩ := h s' d hR hA hP
    exact ⟨hR', hA', ih _ hk⟩

/-- **The frame rule.** What the relation `R` keeps is kept by every task. -/
theorem Sat.frame {F : σ → Prop} (hF : ∀ s s', R s s' → F s → F s') (h : S.Sat R A P t Q s l)
    (hs : F s) (hQ : ∀ v s' l', Q v s' l' → F s' → Q' v s' l') : S.Sat R A P t Q' s l := by
  induction t generalizing s l with
  | ret v => exact hQ _ _ _ h hs
  | fail e => trivial
  | call c k ih =>
    intro s' d hR hA hP
    obtain ⟨hR', hA', hk⟩ := h s' d hR hA hP
    exact ⟨hR', hA', ih _ hk (hF _ _ hR' (hF _ _ hR hs))⟩

/-- **Loops.** What each round establishes, if `R` keeps it, holds for every element at the end.
`J` is what every round keeps of the own state. -/
theorem Sat.forEach {α : Type} {g : α → Routine Call ε Unit} {F : α → σ → Prop} {J : ℓ → Prop}
    {as : List α} (hF : ∀ a s s', R s s' → F a s → F a s')
    (hg : ∀ a ∈ as, ∀ s l, J l → S.Sat R A P (g a) (fun _ s' l' => J l' ∧ F a s') s l) (hl : J l) :
    S.Sat R A P (Routine.forEach g as) (fun _ s' l' => J l' ∧ ∀ a ∈ as, F a s') s l := by
  induction as generalizing s l with
  | nil => exact ⟨hl, fun a ha => by cases ha⟩
  | cons a as ih =>
    refine Sat.bind (hg a (List.mem_cons_self ..) s l hl) fun _ s' l' ha => ?_
    have hrest := ih (s := s') (fun b hb => hg b (List.mem_cons_of_mem _ hb)) ha.1
    exact hrest.frame (hF a) ha.2 fun _ s'' l'' h hFa => ⟨h.1, List.forall_mem_cons.2 ⟨hFa, h.2⟩⟩

theorem Sat.perform {ρ : Type} {c : Call ρ} {g : ρ → Routine Call ε υ}
    (h : ∀ s' d, R s s' → A s' l → P s' _ c →
      R s' (S.exec c d s' l).2.1 ∧ A (S.exec c d s' l).2.1 (S.exec c d s' l).2.2 ∧
        S.Sat R A P (g (S.exec c d s' l).1) Q₂ (S.exec c d s' l).2.1 (S.exec c d s' l).2.2) :
    S.Sat R A P ((Routine.perform c).bind g) Q₂ s l := h

/-! ## Clients -/

/-- The shared state, and the own state and the task of every client. -/
structure Clients (Call : Type → Type) (σ ℓ ε τ ι : Type) where
  shared : σ
  own : ι → ℓ
  task : ι → Routine Call ε τ

/-- A client starts a command, or makes the next call of its task. -/
inductive Act (ι γ δ : Type)
  | start (i : ι) (cmd : γ)
  | call (i : ι) (d : δ)

variable {ι γ : Type} [DecidableEq ι]

/-- Clients that run commands. A client starts a command when it has no call left to make. -/
def machine (S : Server Call σ ℓ δ) (body : γ → ℓ → Routine Call ε τ)
    (init : Clients Call σ ℓ ε τ ι) :
    Machine (Clients Call σ ℓ ε τ ι) (Act ι γ δ) where
  init := init
  step s a :=
    match a with
    | .start i cmd =>
      match s.task i with
      | .call _ _ => none
      | _ => some { s with task := Function.update s.task i (body cmd (s.own i)) }
    | .call i d =>
      match s.task i with
      | .call c k =>
        let out := S.exec c d s.shared (s.own i)
        some {
          shared := out.2.1
          own := Function.update s.own i out.2.2
          task := Function.update s.task i (k out.1) }
      | _ => none

/-- The side condition that every call meets `P`. -/
def Guarded (P : σ → ∀ ρ, Call ρ → Prop) (s : Clients Call σ ℓ ε τ ι) : Act ι γ δ → Prop
  | .start _ _ => True
  | .call i _ => (s.task i).NextMeets (P s.shared)

instance [∀ s ρ c, Decidable (P s ρ c)] :
    DecidableRel (Guarded P : Clients Call σ ℓ ε τ ι → Act ι γ δ → Prop)
  | _, .start _ _ => inferInstanceAs (Decidable True)
  | s, .call i _ => inferInstanceAs (Decidable ((s.task i).NextMeets (P s.shared)))

/-- What holds of one client. -/
structure Client (S : Server Call σ ℓ δ) (R : σ → σ → Prop) (A : σ → ℓ → Prop)
    (P : σ → ∀ ρ, Call ρ → Prop) (s : σ) (l : ℓ) (t : Routine Call ε τ) : Prop where
  own : A s l
  task : S.Sat R A P t (fun _ _ _ => True) s l

variable {body : γ → ℓ → Routine Call ε τ} {init st : Clients Call σ ℓ ε τ ι}

/-- A task that can go on from a state can go on from any state that the others lead to. -/
theorem Client.others (htrans : ∀ s₁ s₂ s₃, R s₁ s₂ → R s₂ s₃ → R s₁ s₃)
    (hA : ∀ s s' l, R s s' → A s l → A s' l) {s' : σ} (h : Client S R A P s l t) (hR : R s s') :
    Client S R A P s' l t := by
  refine ⟨hA _ _ _ hR h.own, ?_⟩
  cases t with
  | ret v => trivial
  | fail e => trivial
  | call c k => exact fun s'' d hR' => h.task s'' d (htrans _ _ _ hR hR')

/-- **The rule for clients.** -/
theorem reach (hrefl : ∀ s, R s s) (htrans : ∀ s₁ s₂ s₃, R s₁ s₂ → R s₂ s₃ → R s₁ s₃)
    (hA : ∀ s s' l, R s s' → A s l → A s' l)
    (hbody : ∀ cmd s l, A s l → S.Sat R A P (body cmd l) (fun _ _ _ => True) s l)
    (hinit : ∀ i, Client S R A P init.shared (init.own i) (init.task i))
    (h : (S.machine body init).Reach (Guarded P) st) :
    R init.shared st.shared ∧ ∀ i, Client S R A P st.shared (st.own i) (st.task i) := by
  let inv (s : Clients Call σ ℓ ε τ ι) : Prop :=
    R init.shared s.shared ∧ ∀ i, Client S R A P s.shared (s.own i) (s.task i)
  refine h.invariant (P := inv) ⟨hrefl _, hinit⟩ ?_
  rintro s a s' - ⟨hR, hs⟩ hc hstep
  cases a with
  | start i cmd =>
    have hnew : s' = { s with task := Function.update s.task i (body cmd (s.own i)) } := by
      simp only [machine] at hstep
      split at hstep
      · cases hstep
      · exact (Option.some.inj hstep).symm
    subst hnew
    refine ⟨hR, fun j => ?_⟩
    by_cases hj : j = i
    · subst hj
      simpa using Client.mk (hs j).own (hbody cmd _ _ (hs j).own)
    · simpa [Function.update_of_ne hj] using hs j
  | call i d =>
    simp only [machine] at hstep
    split at hstep
    · rename_i c k hck
      obtain rfl := Option.some.inj hstep
      have hP : P s.shared _ c := by
        simpa only [Guarded, Routine.NextMeets, hck] using hc
      have htask := (hs i).task
      rw [hck] at htask
      obtain ⟨hR', hA', hk⟩ := htask s.shared d (hrefl _) (hs i).own hP
      refine ⟨htrans _ _ _ hR hR', fun j => ?_⟩
      by_cases hj : j = i
      · subst hj
        simpa using Client.mk hA' hk
      · simpa [Function.update_of_ne hj] using (hs j).others htrans hA hR'
    · cases hstep

end Server
