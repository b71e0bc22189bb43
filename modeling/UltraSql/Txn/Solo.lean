import UltraSql.Txn.TimelineSteps

/-!
# Transactions without savepoints

Without savepoints a transaction has one XID, which is also the name of the session. What a step can
do to its command and its snapshot is then short to say.

**Theorem (`solo_step`).** In a run without savepoints every transaction keeps to its one XID.

**Theorem (`refreshed`).** A transaction that moves on to its next command has a snapshot of this
moment, unless its isolation level keeps the first one.
-/

namespace UltraSql.Timeline

open Option
open Savepoints (txnXids)

variable {t t' : State} {x y : ℕ} {c d d' : Client}

/-- Every transaction has one XID. -/
def Solo (t : State) : Prop :=
  ∀ x c, t.clients.lookup x = some c → ∀ z ∈ txnXids c.handle, z = x

theorem solo_init : Solo {} := fun x c h => by
  rw [show State.clients {} = ∅ from rfl, AList.lookup_empty] at h
  cases h

variable {c' : Client} {ended : ℕ → Option ℕ} {m : TransactionManager} {n xmax : ℕ}
  {ready : List ℕ}

theorem Solo.setClient (hs : Solo t) (hc' : ∀ z ∈ txnXids c'.handle, z = x) :
    Solo { t.setClient x c' with mgr := m, ended := ended, clock := n, ready := ready } := by
  intro y d hd z hz
  have hlook : (if y = x then some c' else t.clients.lookup y) = some d :=
    (lookup_setClient t x y _).symm.trans hd
  split_ifs at hlook with hyx
  · cases hlook
    exact (hc' z hz).trans hyx.symm
  · exact hs y d hlook z hz

variable {b : Act}

theorem solo_step (hi : Inv t) (hs : Solo t) (hb : b.plain = true) (h : step t b = some t') :
    Solo t' := by
  obtain ⟨t₁, h₁, rfl⟩ := hi.step_cases h
  cases h₁ with
  | allocate | publish => exact hs
  | begin iso => exact hs.setClient fun z hz => List.mem_singleton.1 hz
  | @refresh x xmax c hc =>
    obtain ⟨sn, hsn⟩ := refreshSnapshot_handle t.mgr c.handle xmax
    rw [hsn]
    exact hs.setClient (hs x c hc)
  | savepoint ha => obtain ⟨_, _, rfl⟩ | ⟨_, rfl⟩ := ha <;> cases hb
  | rollbackTo => cases hb
  | @rollback x c hc => exact hs.setClient (hs x c hc)
  | @close _ x c _ _ _ hc => exact hs.setClient (hs x c hc)

/-- The isolation level stays, a new command under READ COMMITTED has a new snapshot, and the other
levels keep the first one. -/
structure Refreshed (now : ℕ) (d d' : Client) : Prop where
  isolation : d'.handle.isolation = d.handle.isolation
  view : d'.handle.currentCommand = d.handle.currentCommand ∨
    (d.handle.isolation = .readCommitted → d'.view = now)
  fixed : d.handle.isolation ≠ .readCommitted → d'.view = d.view

theorem Refreshed.refl (now : ℕ) (d : Client) : Refreshed now d d :=
  ⟨rfl, .inl rfl, fun _ => rfl⟩

/-- What holds between a transaction and itself, and for the one that changes. -/
theorem rel_setClient {R : Client → Client → Prop} (hc : t.clients.lookup x = some c)
    (hd : t.clients.lookup y = some d)
    (hd' : ({ t.setClient x c' with
      mgr := m, ended := ended, clock := n, ready := ready } : State).clients.lookup y = some d')
    (hrefl : R d d) (h : y = x → R c c') : R d d' := by
  have hlook : (if y = x then some c' else t.clients.lookup y) = some d' :=
    (lookup_setClient t x y c').symm.trans hd'
  split_ifs at hlook with hyx
  · subst hyx
    cases hlook
    obtain rfl := mem_unique hc hd
    exact h rfl
  · obtain rfl := mem_unique hd hlook
    exact hrefl

/-- The transaction stays at its command and does not commit. -/
structure Steady (d d' : Client) : Prop where
  command : d'.handle.currentCommand = d.handle.currentCommand
  open_ : d.phase ≠ .committed → d'.phase ≠ .committed

theorem Steady.refl (d : Client) : Steady d d := ⟨rfl, id⟩

section

variable (hi : Inv t) (hb : b.plain = true) (h : step t b = some t')
include hi hb h

/-- **A new command has a new snapshot under READ COMMITTED.** -/
theorem refreshed (hd : t.clients.lookup y = some d) (hd' : t'.clients.lookup y = some d') :
    Refreshed t.clock d d' := by
  obtain ⟨t₁, h₁, rfl⟩ := hi.step_cases h
  cases h₁ with
  | allocate | publish | begin =>
    obtain rfl := mem_unique hd' (hi.lookup_of_session_ne h nofun hd)
    exact .refl _ d'
  | @refresh x xmax c hc =>
    obtain ⟨sn, hsn⟩ := refreshSnapshot_handle t.mgr c.handle xmax
    refine rel_setClient hc hd hd' (.refl _ d) fun _ => ⟨?_, .inr fun hiso => ?_, fun hiso => ?_⟩
    · rw [hsn]
    · exact if_pos hiso
    · exact if_neg hiso
  | savepoint ha => obtain ⟨_, _, rfl⟩ | ⟨_, rfl⟩ := ha <;> cases hb
  | rollbackTo => cases hb
  | rollback hc | close _ hc =>
    exact rel_setClient hc hd hd' (.refl _ d) fun _ => ⟨rfl, .inl rfl, fun _ => rfl⟩

theorem steady (hr : ∀ xmax, b ≠ .refresh y xmax) (hcm : b ≠ .commit y)
    (hd : t.clients.lookup y = some d) (hd' : t'.clients.lookup y = some d') : Steady d d' := by
  obtain ⟨t₁, h₁, rfl⟩ := hi.step_cases h
  cases h₁ with
  | allocate | publish | begin =>
    obtain rfl := mem_unique hd' (hi.lookup_of_session_ne h nofun hd)
    exact .refl d'
  | refresh hc =>
    exact rel_setClient hc hd hd' (.refl d) fun hyx =>
      absurd (congrArg (Act.refresh · _) hyx.symm) (hr _)
  | savepoint ha => obtain ⟨_, _, rfl⟩ | ⟨_, rfl⟩ := ha <;> cases hb
  | rollbackTo => cases hb
  | rollback hc => exact rel_setClient hc hd hd' (.refl d) fun _ => ⟨rfl, fun _ => nofun⟩
  | close ha hc =>
    refine rel_setClient hc hd hd' (.refl d) fun hyx => ⟨rfl, fun _ => ?_⟩
    rcases ha with ⟨rfl, -⟩ | ⟨-, -, rfl⟩
    · exact absurd (congrArg Act.commit hyx.symm) hcm
    · nofun

/-- A transaction in the middle of a statement is left alone by the steps of the others. -/
theorem lookup_other (hr : ∀ xmax, b ≠ .refresh y xmax) (hcm : b ≠ .commit y)
    (hrb : b ≠ .rollback y) (hd : t.clients.lookup y = some d) (hp : d.phase = .running) :
    t'.clients.lookup y = some d := by
  refine hi.lookup_of_session_ne h (fun hy => ?_) hd
  obtain ⟨c, c', hc, hm, -⟩ := hi.step_session h hy
  obtain rfl := mem_unique hd hc
  cases b with
  | allocate | publish | begin => cases hy
  | refresh => exact hr _ (congrArg (Act.refresh · _) (some.inj hy))
  | savepoint | release | rollbackTo => cases hb
  | commit => exact hcm (congrArg Act.commit (some.inj hy))
  | rollback => exact hrb (congrArg Act.rollback (some.inj hy))
  | abort =>
    rw [hp] at hm
    cases hm.1

/-- An XID ends at the moment of the step or has ended before. -/
theorem ended_or_now {e : ℕ} (he : t'.ended y = some e) : t.ended y = some e ∨ e = t.clock := by
  obtain ⟨t₁, h₁, rfl⟩ := hi.step_cases h
  cases h₁ with
  | allocate | publish | begin | refresh | savepoint | rollback => exact .inl he
  | rollbackTo => cases hb
  | @close _ x c m p ha hc =>
    change (if y ∈ x :: c.handle.committedSubxidFamily then some t.clock else t.ended y) = _ at he
    split_ifs at he
    · exact .inr (some.inj he).symm
    · exact .inl he

end

end UltraSql.Timeline
