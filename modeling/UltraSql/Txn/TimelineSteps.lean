import UltraSql.Txn.TimelineInv

/-!
# What a step does to a transaction

The histories of the heap need little of the transactions: that views and commands only grow, that
an XID of a transaction stays one of its XIDs, and how the phase moves. `Later` says it for one
transaction, for every step, so that no other module has to look into the steps.

**Theorem (`Inv.later`).** Every step takes each transaction to a later one.

**Theorem (`Horizon.step`).** A vacuum horizon once computed stays at or below the `xmin` of every
snapshot in use, also of those taken later.
-/

namespace UltraSql.Timeline

open TransactionManager Option
open Savepoints (Own txnXids mem_txnXids)

variable {s s' : State} {a : Act} {x y z e h k : ℕ} {c c' d : Client} {ended : ℕ → Option ℕ}
  {m m' : TransactionManager} {t t' : Transaction} {p : Phase} {fresh dead xids ready : List ℕ}

/-- How the phase of a transaction moves. -/
inductive Turn (c c' : Client) : Prop
  | stay (hp : c'.phase = c.phase) (hown : ∀ z, Own c.handle z → Own c'.handle z)
  | undo (dead : List ℕ) (hp : c.phase = .running) (hp' : c'.phase = .undoing (visits dead))
    (hown : ∀ z, Own c.handle z → Own c'.handle z ∨ z ∈ dead)
    (hdead : ∀ z ∈ dead, z ∈ c'.handle.subtxnStack.rolledBack)
  | commit (hp : c.phase = .running) (hp' : c'.phase = .committed) (hh : c'.handle = c.handle)
  | rollback (hp : c.phase = .running)
    (hp' : c'.phase = .aborting (visits c.handle.abortWriteXidFamily.reverse))
    (hh : c'.handle = c.handle)
  | abort (hp : c.phase = .aborting []) (hp' : c'.phase = .aborted) (hh : c'.handle = c.handle)

/-- The transaction `c` some time later. -/
structure Later (c c' : Client) : Prop where
  view : c.view ≤ c'.view
  command : c.handle.currentCommand ≤ c'.handle.currentCommand
  xids : ∀ z ∈ txnXids c.handle, z ∈ txnXids c'.handle
  rolled : ∀ z ∈ c.handle.subtxnStack.rolledBack, z ∈ c'.handle.subtxnStack.rolledBack
  turn : Turn c c'

theorem Later.refl (c : Client) : Later c c :=
  ⟨le_rfl, le_rfl, fun _ h => h, fun _ h => h, .stay rfl fun _ h => h⟩

/-- A transaction that has ended stays as it is. -/
theorem Turn.phase_of_committed (h : Turn c c') (hp : c.phase = .committed) :
    c'.phase = .committed ∧ ∀ z, Own c.handle z → Own c'.handle z := by
  cases h with
  | stay hp' hown => exact ⟨hp'.trans hp, hown⟩
  | undo _ h | commit h | rollback h | abort h =>
    rw [hp] at h
    cases h

theorem mem_abortWriteXidFamily : z ∈ t.abortWriteXidFamily ↔ z ∈ txnXids t := by
  simp only [Transaction.abortWriteXidFamily, List.mem_dedup, List.mem_insertionSort, mem_txnXids,
    Own, List.mem_cons, List.mem_append]
  tauto

theorem mem_visits {v : Visit} : (z, v) ∈ visits xids ↔ z ∈ xids := by
  simp only [visits, List.mem_flatMap, List.mem_cons, Prod.mk.injEq, List.not_mem_nil, or_false]
  constructor
  · rintro ⟨y, hy, ⟨rfl, -⟩ | ⟨rfl, -⟩⟩ <;> exact hy
  · intro hz
    cases v with
    | updates => exact ⟨z, hz, .inl ⟨rfl, rfl⟩⟩
    | stamps => exact ⟨z, hz, .inr ⟨rfl, rfl⟩⟩

/-- A step that changes the client `x` only. -/
theorem later_setClient (hc : s.clients.lookup x = some c) (h : Later c c')
    (hd : s.clients.lookup y = some d) :
    ∃ d', ({ s.setClient x c' with
        mgr := m, ended := ended, clock := k, ready := ready } : State).clients.lookup y = some d' ∧
      Later d d' := by
  show ∃ d', (s.setClient x c').clients.lookup y = some d' ∧ _
  rw [lookup_setClient]
  split_ifs with hyx
  · subst hyx
    obtain rfl := mem_unique hc hd
    exact ⟨c', rfl, h⟩
  · exact ⟨d, hd, Later.refl d⟩

theorem Grown.later (h : Grown m m' c.handle t fresh dead)
    (ht : Turn c { c with handle := t, phase := p }) :
    Later c { c with handle := t, phase := p } :=
  ⟨le_rfl, h.command.ge, fun _ hz => h.mem_txnXids_iff.2 (.inl hz),
    fun z hz => (h.rolled z).2 (.inl hz), ht⟩

theorem Grown.own_of_nil (h : Grown m m' t t' fresh []) (hz : Own t z) : Own t' z :=
  (h.own z).2 (.inl ⟨hz, List.not_mem_nil⟩)

theorem refreshSnapshot_handle (m : TransactionManager) (t : Transaction) (xmax : ℕ) :
    ∃ sn, (m.refreshSnapshot t xmax).2 =
      { t with currentCommand := CommandId.next t.currentCommand, snapshot := sn } := by
  dsimp only [refreshSnapshot]
  split <;> exact ⟨_, rfl⟩

/-- A new transaction takes the place of no other one. -/
theorem Inv.ready_ne (hs : Inv s) (hx : x ∈ s.ready) (hd : s.clients.lookup y = some d) :
    y ≠ x := by
  rintro rfl
  exact ((hs.pending y (.inr hx)).foreign y d hd).1 (hs.client y d hd).self_mem

/-- **Every step takes each transaction to a later one.** -/
theorem Inv.later (hs : Inv s) (ht : Timely s a = true) (h : Timeline.step s a = some s')
    (hd : s.clients.lookup y = some d) : ∃ d', s'.clients.lookup y = some d' ∧ Later d d' := by
  obtain ⟨s₁, h₁, rfl⟩ := hs.step_cases h
  cases h₁ with
  | allocate | publish => exact ⟨d, hd, Later.refl d⟩
  | begin iso hx =>
    refine ⟨d, (lookup_setClient s _ y _).trans ((if_neg ?_).trans hd), Later.refl d⟩
    exact hs.ready_ne hx hd
  | @refresh x xmax c hc hp =>
    obtain ⟨sn, hsn⟩ := refreshSnapshot_handle s.mgr c.handle xmax
    rw [hsn]
    have hcommand := (Nat.le_succ _).trans_eq (CommandId.next_of_lt (timely_refresh hc ht).2).symm
    refine later_setClient hc
      ⟨?_, hcommand, fun _ hz => hz, fun _ hz => hz,
        .stay rfl fun _ hz => hz⟩ hd
    dsimp only
    split_ifs
    · exact (hs.client x c hc).view
    · exact le_rfl
  | savepoint _ hc hp hg =>
    exact later_setClient hc (hg.later (.stay rfl fun z hz => hg.own_of_nil hz)) hd
  | @rollbackTo x sub name c m t dead hc hp hg =>
    refine later_setClient hc (hg.later (.undo dead hp rfl (fun z hz => ?_) fun z hz => ?_)) hd
    · by_cases hzd : z ∈ dead
      · exact .inr hzd
      · exact .inl ((hg.own z).2 (.inl ⟨hz, hzd⟩))
    · exact (hg.rolled z).2 (.inr hz)
  | rollback hc hp =>
    exact later_setClient hc
      ⟨le_rfl, le_rfl, fun _ hz => hz, fun _ hz => hz, .rollback hp rfl rfl⟩ hd
  | close ha hc =>
    refine later_setClient hc ⟨le_rfl, le_rfl, fun _ hz => hz, fun _ hz => hz, ?_⟩ hd
    rcases ha with ⟨-, hp, rfl⟩ | ⟨-, hp, rfl⟩
    · exact .commit hp rfl rfl
    · exact .abort hp rfl rfl

/-- A step of a known transaction brings no other one. -/
theorem known_of_setClient (hc : s.clients.lookup x = some c)
    (hd : ({ s.setClient x c' with
      mgr := m, ended := ended, clock := k, ready := ready } : State).clients.lookup y = some d) :
    ∃ d₀, s.clients.lookup y = some d₀ := by
  have hd' := (lookup_setClient s x y c').symm.trans hd
  split_ifs at hd' with hyx
  · exact ⟨c, hyx ▸ hc⟩
  · exact ⟨d, hd'⟩

/-- A transaction that was not there before has just begun. -/
theorem Inv.known_or_running (hs : Inv s) (h : Timeline.step s a = some s')
    (hd : s'.clients.lookup y = some d) :
    (∃ d₀, s.clients.lookup y = some d₀) ∨ d.phase = .running ∧ d.view = s.clock := by
  obtain ⟨s₁, h₁, rfl⟩ := hs.step_cases h
  cases h₁ with
  | allocate | publish => exact .inl ⟨d, hd⟩
  | begin iso =>
    have hd' := (lookup_setClient s _ y _).symm.trans hd
    split_ifs at hd' with hyx
    · cases hd'
      exact .inr ⟨rfl, rfl⟩
    · exact .inl ⟨d, hd'⟩
  | refresh hc | savepoint _ hc | rollbackTo hc | rollback hc | close _ hc =>
    exact .inl (known_of_setClient hc hd)

/-- What a transaction's step ends was still running. -/
theorem Inv.ended_endXids (hs : Inv s) (hc : s.clients.lookup x = some c)
    (hst : c.phase.status = .inProgress) (hx : ∀ y ∈ xids, Own c.handle y)
    (he : s.ended z = some e) : (if z ∈ xids then some s.clock else s.ended z) = some e := by
  have hci := hs.client x c hc
  rw [if_neg fun hz => ?_, he]
  rw [hci.ownEnded z (hx z hz), hci.open_iff.1 hst] at he
  cases he

/-- The end of an XID is final. -/
theorem Inv.ended_step (hs : Inv s) (h : Timeline.step s a = some s')
    (he : s.ended z = some e) : s'.ended z = some e := by
  obtain ⟨s₁, h₁, rfl⟩ := hs.step_cases h
  cases h₁ with
  | allocate | publish | begin | refresh | savepoint | rollback => exact he
  | rollbackTo hc hp hg =>
    exact hs.ended_endXids hc (by rw [hp]; rfl) (fun y hy => (hg.wasOwn y hy).1) he
  | @close _ x c m p ha hc =>
    refine hs.ended_endXids hc ?_ (fun y hy => ?_) he
    · rcases ha with ⟨-, hp, -⟩ | ⟨-, hp, -⟩ <;> rw [hp] <;> rfl
    · rw [own_iff_mem_family, (hs.client x c hc).xid]
      exact List.mem_cons.1 hy

/-! ## The session of a step -/

/-- How a step moves the phase of its session. -/
def Act.Moves : Act → Phase → Phase → Prop
  | .rollbackTo .., p, q => p = .running ∧ ∃ todo, q = .undoing todo
  | .commit _, p, q => p = .running ∧ q = .committed
  | .rollback _, p, q => p = .running ∧ ∃ todo, q = .aborting todo
  | .abort _, p, q => p = .aborting [] ∧ q = .aborted
  | _, p, q => p = .running ∧ q = .running

/-- **A step changes its own session only.** -/
theorem Inv.step_session (hs : Inv s) (h : Timeline.step s a = some s')
    (ha : a.session = some x) :
    ∃ c c', s.clients.lookup x = some c ∧ a.Moves c.phase c'.phase ∧
      ∀ y, s'.clients.lookup y = if y = x then some c' else s.clients.lookup y := by
  obtain ⟨s₁, h₁, rfl⟩ := hs.step_cases h
  cases h₁ with
  | allocate | publish | begin => cases ha
  | refresh hc hp =>
    cases ha
    refine ⟨_, _, hc, ?_, fun y => lookup_setClient s x y _⟩
    exact ⟨hp, hp⟩
  | savepoint hact hc hp =>
    obtain ⟨sub, name, rfl⟩ | ⟨name, rfl⟩ := hact <;> cases ha <;>
      refine ⟨_, _, hc, ?_, fun y => lookup_setClient s x y _⟩ <;> exact ⟨hp, hp⟩
  | rollbackTo hc hp | rollback hc hp =>
    cases ha
    exact ⟨_, _, hc, ⟨hp, _, rfl⟩, fun y => lookup_setClient s x y _⟩
  | close hact hc =>
    rcases hact with ⟨rfl, hp, rfl⟩ | ⟨rfl, hp, rfl⟩ <;> cases ha <;>
      exact ⟨_, _, hc, ⟨hp, rfl⟩, fun y => lookup_setClient s x y _⟩

theorem Inv.lookup_of_session_ne (hs : Inv s) (h : Timeline.step s a = some s')
    (ha : a.session ≠ some y) (hd : s.clients.lookup y = some d) :
    s'.clients.lookup y = some d := by
  cases hx : a.session with
  | some x =>
    obtain ⟨-, c', -, -, hlook⟩ := hs.step_session h hx
    rw [hlook, if_neg fun hyx => ha (hx.trans (congrArg some hyx.symm)), hd]
  | none =>
    obtain ⟨s₁, h₁, rfl⟩ := hs.step_cases h
    cases h₁ with
    | allocate | publish => exact hd
    | begin _ hr =>
      exact (lookup_setClient s _ y _).trans ((if_neg (hs.ready_ne hr hd)).trans hd)
    | savepoint ha => obtain ⟨_, _, rfl⟩ | ⟨_, rfl⟩ := ha <;> cases hx
    | close ha => obtain ⟨rfl, -⟩ | ⟨rfl, -⟩ := ha <;> cases hx
    | refresh | rollbackTo | rollback => cases hx

theorem Inv.command_of_refresh {xmax : ℕ} (hs : Inv s) (ht : Timely s (.refresh x xmax) = true)
    (h : Timeline.step s (.refresh x xmax) = some s') (hc : s.clients.lookup x = some c)
    (hc' : s'.clients.lookup x = some c') :
    c'.handle.currentCommand = c.handle.currentCommand + 1 := by
  obtain ⟨s₁, h₁, rfl⟩ := hs.step_cases h
  cases h₁ with
  | refresh hc₀ =>
    obtain rfl := mem_unique hc hc₀
    have hlook := (lookup_setClient s x x _).symm.trans hc'
    rw [if_pos rfl] at hlook
    cases hlook
    obtain ⟨sn, hsn⟩ := refreshSnapshot_handle s.mgr c.handle xmax
    rw [hsn]
    exact CommandId.next_of_lt (timely_refresh hc ht).2
  | savepoint ha => obtain ⟨_, _, ha⟩ | ⟨_, ha⟩ := ha <;> cases ha
  | close ha => rcases ha with ⟨ha, -⟩ | ⟨ha, -⟩ <;> cases ha

/-- ROLLBACK TO rolls back the innermost savepoint. -/
theorem writeXid_of_rollbackTo {name : String} {sub : ℕ}
    (h : step s (.rollbackTo x sub name) = some s')
    (hc : s.clients.lookup x = some c) (hc' : s'.clients.lookup x = some c') :
    c.handle.writeXid ∈ c'.handle.subtxnStack.rolledBack := by
  obtain ⟨s₁, h₁, rfl⟩ := map_eq_some_iff.1 h
  obtain ⟨c₀, hc₀, -, heq⟩ := whenRunning_eq_some h₁
  obtain rfl := mem_unique hc hc₀
  split_ifs at heq
  split at heq <;> cases heq
  rename_i m t dead hrb
  have hlook := (lookup_setClient s x x _).symm.trans hc'
  rw [if_pos rfl] at hlook
  cases hlook
  obtain ⟨inner, target, outer, hst, -, -, -, -, -, hrolled, -⟩ := rollbackToSavepointAt_ok hrb
  refine (hrolled _).2 (.inr ?_)
  unfold Transaction.writeXid
  rw [hst]
  cases inner with
  | nil => exact .inr (.inl rfl)
  | cons e inner => exact .inl List.mem_cons_self

/-! ## The vacuum horizon -/

/-- No snapshot in use, now or later, has an XID below `h` as running. -/
structure Horizon (s : State) (h : ℕ) : Prop where
  next : h ≤ s.mgr.nextXid
  client : ∀ x c, s.clients.lookup x = some c → c.phase.status = .inProgress →
    h ≤ x ∧ h ≤ c.handle.snapshot.xmin
  pending : ∀ y, y ∈ s.loose ∨ y ∈ s.ready → h ≤ y

instance instDecidableHorizon (s : State) (h : ℕ) : Decidable (Horizon s h) :=
  decidable_of_iff (h ≤ s.mgr.nextXid ∧ (∀ e ∈ s.clients.entries,
      e.2.phase.status = .inProgress → h ≤ e.1 ∧ h ≤ e.2.handle.snapshot.xmin) ∧
      ∀ y ∈ s.loose ++ s.ready, h ≤ y) <| by
    constructor
    · rintro ⟨h₁, h₂, h₃⟩
      refine ⟨h₁, fun x c hc => h₂ ⟨x, c⟩ (AList.mem_lookup_iff.1 hc), fun y hy => ?_⟩
      exact h₃ y (List.mem_append.2 hy)
    · intro hh
      refine ⟨hh.next, fun e he => hh.client e.1 e.2 (AList.mem_lookup_iff.2 he), fun y hy => ?_⟩
      exact hh.pending y (List.mem_append.1 hy)

/-- `vacuum_horizon` computes a horizon at a moment at which every XID is in the running set. -/
theorem Inv.horizon (hs : Inv s) (hloose : s.loose = []) : Horizon s s.mgr.vacuumHorizon := by
  refine ⟨?_, fun x c hc hst => ⟨?_, ?_⟩, fun y hy => ?_⟩
  · refine (horizonOf_le_oldest _ _).trans (oldestInProgress_le_next fun y st hy => ?_)
    refine not_le.1 fun hle => ?_
    rw [hs.logged y hle] at hy
    cases hy
  · refine (horizonOf_le_oldest _ _).trans (oldestInProgress_le ?_)
    rw [← hst]
    exact (hs.client x c hc).own x (.inl (hs.client x c hc).xid.symm)
  · exact horizonOf_le_floor _ ((hs.client x c hc).floor hst)
  · rw [hloose] at hy
    have hr := hy.resolve_left List.not_mem_nil
    exact (horizonOf_le_oldest _ _).trans (oldestInProgress_le (hs.ready y hr).2.1)

/-- What runs is at or above the horizon. -/
theorem Horizon.le_inProgress (hh : Horizon s h) (hs : Inv s) (hy : y ∈ s.mgr.inProgress) :
    h ≤ y := by
  obtain hr | ⟨x, c, hc, hyc⟩ := hs.known y hy
  · exact hh.pending y (.inr hr)
  have hci := hs.client x c hc
  have hin := (hs.running x c hc y hyc).1 hy
  have hown : Own c.handle y := (mem_txnXids.1 hyc).resolve_right fun hr => by
    rw [(hci.rolled y hr).1] at hin
    cases hin
  have hst : c.phase.status = .inProgress := mem_unique (hci.own y hown) hin
  refine (hh.client x c hc hst).1.trans ?_
  rcases hown with rfl | hsub
  · exact hci.xid.ge
  · exact hci.xid.ge.trans (hci.above y hsub).le

/-- A snapshot taken now stays above the horizon, because its `xmax` is above a running XID. -/
theorem Horizon.le_snapshotSection {cmd xmax : ℕ} {own : OwnSubxids} (hh : Horizon s h)
    (hs : Inv s) (hxmax : h ≤ xmax) : h ≤ (s.mgr.snapshotSection x cmd xmax own).xmin := by
  rw [snapshotSection_xmin]
  cases hmin : (s.mgr.foreignActive x xmax own).min? with
  | none => exact hxmax
  | some a =>
    exact hh.le_inProgress hs (mem_foreignActive.1 (List.min?_eq_some_iff.1 hmin).1).1

/-- A step that changes one client, whose snapshot keeps its `xmin`. -/
theorem Horizon.setClient (hh : Horizon s h) (hc : s.clients.lookup x = some c)
    (hst : c'.phase.status = .inProgress → c.phase.status = .inProgress ∧
      h ≤ c'.handle.snapshot.xmin) (hm : m.nextXid = s.mgr.nextXid)
    (hr : ∀ y ∈ ready, y ∈ s.ready) :
    Horizon { s.setClient x c' with mgr := m, ended := ended, clock := k, ready := ready } h := by
  refine ⟨hh.next.trans_eq hm.symm, fun y d hd hdst => ?_, fun y hy =>
    hh.pending y (hy.imp_right (hr y))⟩
  have hd' := (lookup_setClient s x y c').symm.trans hd
  split_ifs at hd' with hyx
  · subst hyx
    obtain rfl := some.inj hd'
    exact ⟨(hh.client y c hc (hst hdst).1).1, (hst hdst).2⟩
  · exact hh.client y d hd' hdst

theorem Horizon.step (hh : Horizon s h) (hs : Inv s)
    (hstep : Timeline.step s a = some s') : Horizon s' h := by
  have hkeep : ∀ y ∈ s.ready, y ∈ s.ready := fun _ hy => hy
  obtain ⟨s₁, h₁, rfl⟩ := hs.step_cases hstep
  cases h₁ with
  | allocate =>
    refine ⟨hh.next.trans (Nat.le_succ _), hh.client, fun y hy => ?_⟩
    rcases hy with hy | hy
    · rcases List.mem_cons.1 hy with rfl | hy
      · exact hh.next
      · exact hh.pending y (.inl hy)
    · exact hh.pending y (.inr hy)
  | publish hx =>
    refine ⟨hh.next, hh.client, fun y hy => hh.pending y ?_⟩
    rcases hy with hy | hy
    · exact .inl (List.mem_filter.1 hy).1
    · rcases List.mem_cons.1 hy with rfl | hy
      · exact .inl hx
      · exact .inr hy
  | @begin x xmax iso hx hlt =>
    refine ⟨hh.next, fun y d hd hdst => ?_, fun y hy =>
      hh.pending y (hy.imp_right fun hy => (List.mem_filter.1 hy).1)⟩
    have hxh := hh.pending x (.inr hx)
    have hd' := (lookup_setClient s _ y _).symm.trans hd
    split_ifs at hd' with hyx
    · subst hyx
      obtain rfl := some.inj hd'
      exact ⟨hxh, hh.le_snapshotSection hs (hxh.trans hlt.le)⟩
    · exact hh.client y d hd' hdst
  | @refresh x xmax c hc hp hlt =>
    have hst : c.phase.status = .inProgress := congrArg Phase.status hp
    cases hiso : c.handle.isolation with
      simp only [refreshSnapshot, Transaction.nextCommand, hiso]
    | readCommitted =>
      refine hh.setClient hc (fun _ => ⟨hst, ?_⟩) rfl hkeep
      exact hh.le_snapshotSection hs ((hh.client x c hc hst).1.trans hlt.le)
    | repeatableRead | serializable =>
      refine hh.setClient hc (fun _ => ⟨hst, ?_⟩) rfl hkeep
      exact (hh.client x c hc hst).2
  | @savepoint _ x c m t _ _ _ hc hp hg _ hready =>
    refine hh.setClient hc ?_ hg.next fun y hy => ((hready y).1 hy).1
    rw [hg.snapshot]
    exact fun hst => ⟨hst, (hh.client x c hc hst).2⟩
  | @rollbackTo x sub name c m t dead hc hp hg =>
    have hst : c.phase.status = .inProgress := congrArg Phase.status hp
    refine hh.setClient hc (fun _ => ⟨hst, ?_⟩) hg.next fun y hy => (List.mem_filter.1 hy).1
    rw [hg.snapshot]
    exact (hh.client x c hc hst).2
  | @rollback x c hc hp =>
    have hst : c.phase.status = .inProgress := congrArg Phase.status hp
    refine hh.setClient hc (fun _ => ⟨hst, ?_⟩) rfl hkeep
    exact (hh.client x c hc hst).2
  | close ha hc hclosed =>
    refine hh.setClient hc ?_ hclosed.next hkeep
    rcases ha with ⟨-, -, rfl⟩ | ⟨-, -, rfl⟩ <;> simp [Phase.status]

end UltraSql.Timeline
