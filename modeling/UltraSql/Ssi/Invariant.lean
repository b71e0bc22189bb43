import UltraSql.Ssi.History

/-!
# What holds along a history

The invariant of `History`, in three parts.

* `TxnInv`: the phases agree with the commit log, and a snapshot has an XID as resolved only if its
  transaction was over, and had passed its commit check, before the snapshot's began. An XID without
  a snapshot is unresolved for every other one and not below any sampled horizon.
* `GraphInv`: an entry of the conflict graph stays as long as a transaction runs that began before
  the entry's commit check. An antidependency is recorded whenever a writer's tags meet a
  concurrent reader's locks, unless the reader was decided before the writer began. A transaction
  that has passed its commit check is not the pivot of a dangerous structure.
* `HistoryInv`: reads return the newest version that the snapshot has as resolved, and every
  version was resolved for the writer of the next one.
-/

namespace UltraSql

open Option

namespace TransactionManager

variable {m m' : TransactionManager} {x : ℕ} {st : XidStatus} {t : Transaction}

/-- What `begin` does once the XID is in the running set. -/
structure Begun (m m' : TransactionManager) (x xmax : ℕ) (t : Transaction) : Prop where
  next : m'.nextXid = m.nextXid
  clog : m'.clog = m.clog
  inProgress : m'.inProgress = m.inProgress
  parents : m'.subxidParent = m.subxidParent
  xid : t.xid = x
  family : t.committedSubxidFamily = []
  bounds : t.snapshot.xmin ≤ t.snapshot.xmax ∧ t.snapshot.xmax = xmax
  unresolved : ∀ y, y ∈ m.inProgress ∨ xmax ≤ y → y ≠ x → t.snapshot.xidInProgress y = true

theorem begun_beginAt (m : TransactionManager) (x : ℕ) (isolation : IsolationLevel) (xmax : ℕ) :
    Begun m (m.beginAt x isolation xmax).1 x xmax (m.beginAt x isolation xmax).2 := by
  refine ⟨rfl, rfl, rfl, rfl, rfl, rfl, ⟨?_, snapshotSection_xmax⟩, fun y hy hne => ?_⟩
  · exact snapshotSection_xmin_le_xmax.trans_eq snapshotSection_xmax.symm
  · refine (snapshotSection_inProgress hy).resolve_right fun hcur => ?_
    rw [Snapshot.isCurrentXid_iff, mem_live_snapshotSection, snapshotSection_currentXid] at hcur
    rcases hcur with hcur | hcur
    · exact hne hcur
    · cases hcur

/-- What the end of a transaction without savepoints does. -/
structure Ended (m : TransactionManager) (x : ℕ) (st : XidStatus) (m' : TransactionManager) :
    Prop where
  next : m'.nextXid = m.nextXid
  clog : ∀ y, m'.clog.lookup y = if y = x then some st else m.clog.lookup y
  inProgress : ∀ y, y ∈ m'.inProgress ↔ y ∈ m.inProgress ∧ y ≠ x
  parents : m'.subxidParent = m.subxidParent

theorem ended_terminate {force : Bool} (h : m.terminateWithSubxids x [] st force = .ok m') :
    Ended m x st m' := by
  obtain ⟨-, hclog, hin, hnext, -, hpar⟩ := terminate_ok h
  refine ⟨hnext, fun y => ?_, fun y => ?_, hpar⟩
  · simpa using hclog y
  · simpa using hin y

theorem ended_commitFinalizeVisible (hf : t.committedSubxidFamily = [])
    (h : m.commitFinalizeVisible t t.committedSubxidFamily = .ok m') :
    Ended m t.xid .committed m' := by
  rw [hf, commitFinalizeVisible] at h
  split at h
  · cases h
  · rename_i m₁ h₁
    cases h
    exact ended_terminate h₁

theorem ended_abort (hf : t.committedSubxidFamily = []) (h : m.abort t = .ok m') :
    Ended m t.xid .aborted m' := by
  rw [abort, hf] at h
  split at h
  · cases h
  · rename_i m₁ h₁
    cases h
    exact ended_terminate h₁

end TransactionManager

namespace Ssi

open TransactionManager

variable {ι : Type*} {s s' : State ι} {x y : ℕ} {t u : Txn}

/-- The transaction may still commit, or has committed. -/
def Txn.Alive (t : Txn) : Prop := t.phase ≠ .doomed ∧ t.phase ≠ .aborted

/-- The transaction is no longer running. -/
def Txn.Over (t : Txn) : Prop := t.phase.status ≠ .inProgress

/-! ## Transactions -/

/-- An XID without a snapshot. -/
structure Pending (s : State ι) (x : ℕ) : Prop where
  range : 3 ≤ x ∧ x < s.mgr.nextXid
  fresh : s.txns.lookup x = none
  unresolved : ∀ y u, s.txns.lookup y = some u → u.handle.snapshot.xidInProgress x = true
  horizons : ∀ h ∈ s.horizons, h ≤ x

structure TxnInv (s : State ι) : Prop where
  parents : s.mgr.subxidParent = ∅
  next : 3 ≤ s.mgr.nextXid
  range : ∀ x t, s.txns.lookup x = some t → 3 ≤ x ∧ x < s.mgr.nextXid
  clog : ∀ x t, s.txns.lookup x = some t → s.mgr.clog.lookup x = some t.phase.status
  running : ∀ x t, s.txns.lookup x = some t → ¬ t.Over → x ∈ s.mgr.inProgress
  handle : ∀ x t, s.txns.lookup x = some t →
    t.handle.xid = x ∧ t.handle.committedSubxidFamily = []
  begun : ∀ x t, s.txns.lookup x = some t → t.beginAt < s.clock
  checkedAt : ∀ x t c, s.txns.lookup x = some t → t.checkAt = some c →
    t.beginAt < c ∧ c < s.clock
  unchecked : ∀ x t, s.txns.lookup x = some t → t.phase = .active → t.checkAt = none
  checked : ∀ x t, s.txns.lookup x = some t → t.phase = .checked ∨ t.phase = .committed →
    t.checkAt ≠ none
  injective : ∀ x y t u c, s.txns.lookup x = some t → s.txns.lookup y = some u →
    t.checkAt = some c → u.checkAt = some c → x = y
  bounds : ∀ x t, s.txns.lookup x = some t →
    t.handle.snapshot.xmin ≤ t.handle.snapshot.xmax ∧ t.handle.snapshot.xmax ≤ s.mgr.nextXid
  resolved : ∀ x y t u, s.txns.lookup x = some t → s.txns.lookup y = some u → x ≠ y →
    t.handle.snapshot.xidInProgress y = false → u.Over ∧ ∀ c, u.checkAt = some c → c < t.beginAt
  horizons : ∀ h ∈ s.horizons, h ≤ s.mgr.nextXid ∧
    ∀ x t, s.txns.lookup x = some t → ¬ t.Over → h ≤ x
  logged : ∀ x st, s.mgr.clog.lookup x = some st →
    x ∈ s.ready ∧ st = .inProgress ∨ ∃ t, s.txns.lookup x = some t
  loose : ∀ x ∈ s.loose, Pending s x ∧ s.mgr.clog.lookup x = none
  ready : ∀ x ∈ s.ready,
    Pending s x ∧ s.mgr.clog.lookup x = some .inProgress ∧ x ∈ s.mgr.inProgress

theorem TxnInv.lt_next (hs : TxnInv s) {st : XidStatus} (h : s.mgr.clog.lookup x = some st) :
    x < s.mgr.nextXid := by
  obtain ⟨hr, -⟩ | ⟨t, ht⟩ := hs.logged x st h
  · exact (hs.ready x hr).1.range.2
  · exact (hs.range x t ht).2

/-- Time goes on, and the horizon may be sampled. -/
theorem TxnInv.tick (hs : TxnInv s) {ssi : SsiManager} {versions : ι → List ℕ}
    {reads : List (ℕ × ι × Option ℕ)} {horizons : List ℕ}
    (hh : ∀ h ∈ horizons, h ∈ s.horizons ∨ h = s.mgr.oldestInProgress ∧ ∀ y ∈ s.loose, h ≤ y) :
    TxnInv { s with
      ssi := ssi, versions := versions, reads := reads, horizons := horizons
      clock := s.clock + 1 } := by
  refine { hs with
    begun := fun x t ht => Nat.lt_succ_of_lt (hs.begun x t ht)
    checkedAt := fun x t c ht hc =>
      (hs.checkedAt x t c ht hc).imp_right Nat.lt_succ_of_lt
    horizons := fun h hmem => ?_
    loose := fun x hx =>
      ⟨{ (hs.loose x hx).1 with horizons := fun h hmem => ?_ }, (hs.loose x hx).2⟩
    ready := fun x hx =>
      ⟨{ (hs.ready x hx).1 with horizons := fun h hmem => ?_ }, (hs.ready x hx).2⟩ }
  · rcases hh h hmem with hold | ⟨rfl, -⟩
    · exact hs.horizons h hold
    · exact ⟨oldestInProgress_le_next fun x st => hs.lt_next, fun x t ht hover =>
        oldestInProgress_le ((hs.clog x t ht).trans (congrArg some (not_not.1 hover)))⟩
  · exact (hh h hmem).elim ((hs.loose x hx).1.horizons h) fun hnew => hnew.2 x hx
  · rcases hh h hmem with hold | ⟨rfl, -⟩
    · exact (hs.ready x hx).1.horizons h hold
    · exact oldestInProgress_le (hs.ready x hx).2.1

/-- `fetch_add` -/
theorem TxnInv.allocated (hs : TxnInv s) :
    TxnInv { s with mgr := s.mgr.allocXid, loose := s.mgr.nextXid :: s.loose } := by
  have hlater : ∀ {x}, Pending s x →
      Pending { s with mgr := s.mgr.allocXid, loose := s.mgr.nextXid :: s.loose } x :=
    fun h => { h with range := h.range.imp_right Nat.lt_succ_of_lt }
  refine { hs with
    next := hs.next.trans (Nat.le_succ _)
    range := fun x t ht => (hs.range x t ht).imp_right Nat.lt_succ_of_lt
    bounds := fun x t ht => (hs.bounds x t ht).imp_right Nat.le_succ_of_le
    horizons := fun h hmem => (hs.horizons h hmem).imp_left Nat.le_succ_of_le
    loose := fun x hx => ?_
    ready := fun x hx => (hs.ready x hx).imp_left hlater }
  rcases List.mem_cons.1 hx with rfl | hx
  · -- the new XID is beyond every snapshot and every horizon
    refine ⟨⟨⟨hs.next, Nat.lt_succ_self _⟩, ?_, fun y u hu => ?_, fun h hmem => ?_⟩, ?_⟩
    · exact eq_none_iff_forall_not_mem.2 fun t ht => lt_irrefl _ (hs.range _ t ht).2
    · have hb := hs.bounds y u hu
      exact Snapshot.xidInProgress_iff.2 ⟨hb.1.trans hb.2, .inl hb.2⟩
    · exact (hs.horizons h hmem).1
    · exact eq_none_iff_forall_not_mem.2 fun st hst => lt_irrefl _ (hs.lt_next hst)
  · exact (hs.loose x hx).imp_left hlater

/-- The XID enters the commit log and the running set. -/
theorem TxnInv.published (hs : TxnInv s) (hx : x ∈ s.loose) :
    TxnInv { s with
      mgr := (s.mgr.clogInsert x).publish x, loose := s.loose.filter (· ≠ x)
      ready := x :: s.ready } := by
  have hclog : ∀ y, ((s.mgr.clogInsert x).publish x).clog.lookup y =
      if y = x then some .inProgress else s.mgr.clog.lookup y := fun y =>
    FiniteMap.lookup_insert_eq _ _ _ _
  have hpending : ∀ {y}, Pending s y → Pending { s with
      mgr := (s.mgr.clogInsert x).publish x, loose := s.loose.filter (· ≠ x)
      ready := x :: s.ready } y := fun h => { h with }
  refine { hs with
    clog := fun y t ht => ?_
    running := fun y t ht hrun => List.mem_insert_of_mem (hs.running y t ht hrun)
    logged := fun y st hst => ?_
    loose := fun y hy => ?_
    ready := fun y hy => ?_ }
  · rw [hclog, if_neg]
    · exact hs.clog y t ht
    · rintro rfl
      cases (hs.loose y hx).1.fresh.symm.trans ht
  · rw [hclog] at hst
    split_ifs at hst with hyx
    · cases hst
      exact .inl ⟨hyx ▸ List.mem_cons_self, rfl⟩
    · exact (hs.logged y st hst).imp_left (And.imp_left (List.mem_cons_of_mem x))
  · obtain ⟨hy, hyx⟩ := List.mem_filter.1 hy
    rw [hclog, if_neg (by simpa using hyx)]
    exact (hs.loose y hy).imp_left hpending
  · rw [hclog]
    rcases List.mem_cons.1 hy with rfl | hy
    · exact ⟨hpending (hs.loose y hx).1, if_pos rfl, List.mem_insert_self⟩
    · obtain ⟨hp, hin, hrun⟩ := hs.ready y hy
      exact ⟨hpending hp, by split_ifs <;> trivial, List.mem_insert_of_mem hrun⟩

/-- A step of one running transaction. -/
structure Progress (s s' : State ι) (x : ℕ) (t t' : Txn) : Prop where
  was : s.txns.lookup x = some t
  running : ¬ t.Over
  txns : ∀ y, s'.txns.lookup y = if y = x then some t' else s.txns.lookup y
  handle : t'.handle = t.handle
  beginAt : t'.beginAt = t.beginAt
  alive : t'.Alive → t.Alive
  checkAt : t'.checkAt = t.checkAt ∨ t.phase = .active ∧ t'.checkAt = some s.clock
  unchecked : t'.phase = .active → t'.checkAt = none
  checked : t'.phase = .checked ∨ t'.phase = .committed → t'.checkAt ≠ none
  next : s'.mgr.nextXid = s.mgr.nextXid
  parents : s'.mgr.subxidParent = s.mgr.subxidParent
  clog : ∀ y, s'.mgr.clog.lookup y =
    if y = x then some t'.phase.status else s.mgr.clog.lookup y
  inProgress : ∀ y ∈ s.mgr.inProgress, y ≠ x ∨ ¬ t'.Over → y ∈ s'.mgr.inProgress
  horizons : s'.horizons = s.horizons
  loose : s'.loose = s.loose
  ready : s'.ready = s.ready
  clock : s'.clock = s.clock + 1

/-- What a transaction keeps when it takes a step of its own. -/
structure Later (t u : Txn) : Prop where
  handle : u.handle = t.handle
  beginAt : u.beginAt = t.beginAt
  alive : u.Alive → t.Alive
  running : ¬ u.Over → ¬ t.Over
  checkAt : ∀ c, t.checkAt = some c → u.checkAt = some c

theorem Later.refl (t : Txn) : Later t t := ⟨rfl, rfl, id, id, fun _ => id⟩

section Progress

variable {t' : Txn} (h : Progress s s' x t t')

include h

theorem Progress.cases (hu : s'.txns.lookup y = some u) :
    y = x ∧ u = t' ∨ y ≠ x ∧ s.txns.lookup y = some u :=
  FiniteMap.lookup_cases (h.txns y) hu

theorem Progress.later (hs : TxnInv s) : Later t t' := by
  refine ⟨h.handle, h.beginAt, h.alive, fun _ => h.running, fun c hc => ?_⟩
  rcases h.checkAt with hk | ⟨hp, -⟩
  · exact hk.trans hc
  · rw [hs.unchecked x t h.was hp] at hc
    cases hc

theorem Progress.old (hs : TxnInv s) (hu : s'.txns.lookup y = some u) :
    ∃ u₀, s.txns.lookup y = some u₀ ∧ Later u₀ u := by
  obtain ⟨rfl, rfl⟩ | ⟨-, hu⟩ := h.cases hu
  · exact ⟨t, h.was, h.later hs⟩
  · exact ⟨u, hu, .refl u⟩

theorem Progress.new (hs : TxnInv s) (hu : s.txns.lookup y = some u) :
    ∃ u', s'.txns.lookup y = some u' ∧ Later u u' := by
  rw [h.txns y]
  by_cases hyx : y = x
  · subst hyx
    obtain rfl := mem_unique h.was hu
    exact ⟨t', if_pos rfl, h.later hs⟩
  · exact ⟨u, (if_neg hyx).trans hu, .refl u⟩

/-- The check time of a transaction is as before, or the step has stamped it. -/
theorem Progress.checkAt_cases {u₀ : Txn} {c : ℕ} (hu : s'.txns.lookup y = some u)
    (hu₀ : s.txns.lookup y = some u₀) (hc : u.checkAt = some c) :
    u₀.checkAt = some c ∨ y = x ∧ t.phase = .active ∧ c = s.clock := by
  obtain ⟨rfl, rfl⟩ | ⟨-, hu⟩ := h.cases hu
  · obtain rfl := mem_unique h.was hu₀
    rcases h.checkAt with hsame | ⟨hact, hnew⟩
    · exact .inl (hsame ▸ hc)
    · exact .inr ⟨rfl, hact, mem_unique hc hnew⟩
  · exact .inl (mem_unique hu hu₀ ▸ hc)

theorem Progress.pending (hs : TxnInv s) (hp : Pending s y) : y ≠ x ∧ Pending s' y := by
  have hne : y ≠ x := by
    rintro rfl
    cases hp.fresh.symm.trans h.was
  refine ⟨hne, h.next ▸ hp.range, (h.txns y).trans ((if_neg hne).trans hp.fresh), fun z u hu => ?_,
    h.horizons ▸ hp.horizons⟩
  obtain ⟨u₀, hu₀, hl⟩ := h.old hs hu
  exact hl.handle ▸ hp.unresolved z u₀ hu₀

theorem TxnInv.progress (hs : TxnInv s) : TxnInv s' := by
  refine ⟨h.parents ▸ hs.parents, h.next ▸ hs.next, ?_, ?_, ?_, ?_, ?_, ?_, ?_, ?_, ?_, ?_, ?_, ?_,
    ?_, ?_, ?_⟩
  · intro y u hu
    obtain ⟨u₀, hu₀, -⟩ := h.old hs hu
    rw [h.next]
    exact hs.range y u₀ hu₀
  · intro y u hu
    rw [h.clog y]
    obtain ⟨rfl, rfl⟩ | ⟨hne, hu⟩ := h.cases hu
    · exact if_pos rfl
    · exact (if_neg hne).trans (hs.clog y u hu)
  · intro y u hu hover
    obtain ⟨rfl, rfl⟩ | ⟨hne, hu⟩ := h.cases hu
    · exact h.inProgress y (hs.running y t h.was h.running) (.inr hover)
    · exact h.inProgress y (hs.running y u hu hover) (.inl hne)
  · intro y u hu
    obtain ⟨u₀, hu₀, hl⟩ := h.old hs hu
    rw [hl.handle]
    exact hs.handle y u₀ hu₀
  · intro y u hu
    obtain ⟨u₀, hu₀, hl⟩ := h.old hs hu
    rw [h.clock, hl.beginAt]
    exact Nat.lt_succ_of_lt (hs.begun y u₀ hu₀)
  · intro y u c hu hc
    obtain ⟨u₀, hu₀, hl⟩ := h.old hs hu
    rw [h.clock, hl.beginAt]
    rcases h.checkAt_cases hu hu₀ hc with hold | ⟨-, -, rfl⟩
    · exact (hs.checkedAt y u₀ c hu₀ hold).imp_right Nat.lt_succ_of_lt
    · exact ⟨hs.begun y u₀ hu₀, Nat.lt_succ_self _⟩
  · intro y u hu hp
    obtain ⟨rfl, rfl⟩ | ⟨-, hu⟩ := h.cases hu
    · exact h.unchecked hp
    · exact hs.unchecked y u hu hp
  · intro y u hu hp
    obtain ⟨rfl, rfl⟩ | ⟨-, hu⟩ := h.cases hu
    · exact h.checked hp
    · exact hs.checked y u hu hp
  · intro y z u v c hu hv hcu hcv
    obtain ⟨u₀, hu₀, -⟩ := h.old hs hu
    obtain ⟨v₀, hv₀, -⟩ := h.old hs hv
    -- a check time of another transaction is not the one just stamped
    rcases h.checkAt_cases hu hu₀ hcu with hcu | ⟨rfl, -, rfl⟩
    · rcases h.checkAt_cases hv hv₀ hcv with hcv | ⟨-, -, rfl⟩
      · exact hs.injective y z u₀ v₀ c hu₀ hv₀ hcu hcv
      · exact absurd (hs.checkedAt y u₀ _ hu₀ hcu).2 (lt_irrefl _)
    · rcases h.checkAt_cases hv hv₀ hcv with hcv | ⟨rfl, -⟩
      · exact absurd (hs.checkedAt z v₀ _ hv₀ hcv).2 (lt_irrefl _)
      · rfl
  · intro y u hu
    obtain ⟨u₀, hu₀, hl⟩ := h.old hs hu
    rw [h.next, hl.handle]
    exact hs.bounds y u₀ hu₀
  · intro y z u v hu hv hne hres
    -- the one that moves was running, so no snapshot has it as resolved
    obtain ⟨u₀, hu₀, hl⟩ := h.old hs hu
    rw [hl.handle] at hres
    rw [hl.beginAt]
    obtain ⟨rfl, rfl⟩ | ⟨-, hv⟩ := h.cases hv
    · exact absurd (hs.resolved y z u₀ t hu₀ h.was hne hres).1 h.running
    · exact hs.resolved y z u₀ v hu₀ hv hne hres
  · intro k hk
    rw [h.horizons] at hk
    rw [h.next]
    refine ⟨(hs.horizons k hk).1, fun y u hu hover => ?_⟩
    obtain ⟨u₀, hu₀, hl⟩ := h.old hs hu
    exact (hs.horizons k hk).2 y u₀ hu₀ (hl.running hover)
  · intro y st hst
    rw [h.clog y] at hst
    rw [h.ready, h.txns y]
    split_ifs at hst ⊢
    · exact .inr ⟨t', rfl⟩
    · exact hs.logged y st hst
  · intro y hy
    obtain ⟨hp, hnone⟩ := hs.loose y (h.loose ▸ hy)
    obtain ⟨hne, hp⟩ := h.pending hs hp
    exact ⟨hp, (h.clog y).trans ((if_neg hne).trans hnone)⟩
  · intro y hy
    obtain ⟨hp, hin, hrun⟩ := hs.ready y (h.ready ▸ hy)
    obtain ⟨hne, hp⟩ := h.pending hs hp
    exact ⟨hp, (h.clog y).trans ((if_neg hne).trans hin), h.inProgress y hrun (.inl hne)⟩

end Progress

/-- `begin` adds a transaction. -/
structure Opened (s s' : State ι) (x xmax : ℕ) (t : Txn) : Prop where
  was : x ∈ s.ready
  txns : ∀ y, s'.txns.lookup y = if y = x then some t else s.txns.lookup y
  begun : Begun s.mgr s'.mgr x xmax t.handle
  xmax_le : xmax ≤ s.mgr.nextXid
  clear : ∀ y ∈ s.loose, xmax ≤ y
  active : t.phase = .active
  unchecked : t.checkAt = none
  locks : t.locks = []
  writeTags : t.writeTags = []
  beginAt : t.beginAt = s.clock
  horizons : s'.horizons = s.horizons
  loose : s'.loose = s.loose
  ready : s'.ready = s.ready.filter (· ≠ x)
  clock : s'.clock = s.clock + 1

section Opened

variable {xmax : ℕ} (h : Opened s s' x xmax t)

include h

theorem Opened.cases (hu : s'.txns.lookup y = some u) :
    y = x ∧ u = t ∨ y ≠ x ∧ s.txns.lookup y = some u :=
  FiniteMap.lookup_cases (h.txns y) hu

theorem Opened.all {P : ℕ → Txn → Prop} (hnew : P x t)
    (hold : ∀ y u, s.txns.lookup y = some u → P y u) (y : ℕ) (u : Txn)
    (hu : s'.txns.lookup y = some u) : P y u := by
  obtain ⟨rfl, rfl⟩ | ⟨-, hu⟩ := h.cases hu
  · exact hnew
  · exact hold y u hu

/-- The new snapshot has the XIDs without a snapshot as unresolved. -/
theorem Opened.pending (hp : Pending s y) (hne : y ≠ x) (hy : y ∈ s.mgr.inProgress ∨ xmax ≤ y) :
    Pending s' y where
  range := h.begun.next ▸ hp.range
  fresh := (h.txns y).trans ((if_neg hne).trans hp.fresh)
  unresolved := h.all (h.begun.unresolved y hy hne) hp.unresolved
  horizons := h.horizons ▸ hp.horizons

theorem TxnInv.opened (hs : TxnInv s) : TxnInv s' := by
  obtain ⟨hx, hlog, hrun⟩ := hs.ready x h.was
  refine ⟨h.begun.parents.trans hs.parents, h.begun.next ▸ hs.next, ?_, ?_, ?_, ?_, ?_, ?_, ?_, ?_,
    ?_, ?_, ?_, ?_, ?_, ?_, ?_⟩
  · rw [h.begun.next]
    exact h.all hx.range hs.range
  · rw [h.begun.clog]
    exact h.all (by rw [hlog, h.active]; rfl) hs.clog
  · rw [h.begun.inProgress]
    exact h.all (fun _ => hrun) hs.running
  · exact h.all ⟨h.begun.xid, h.begun.family⟩ hs.handle
  · rw [h.clock]
    exact h.all (h.beginAt ▸ Nat.lt_succ_self _) fun y u hu => Nat.lt_succ_of_lt (hs.begun y u hu)
  · intro y u c hu hc
    rw [h.clock]
    obtain ⟨rfl, rfl⟩ | ⟨-, hu⟩ := h.cases hu
    · rw [h.unchecked] at hc
      cases hc
    · exact (hs.checkedAt y u c hu hc).imp_right Nat.lt_succ_of_lt
  · exact h.all (fun _ => h.unchecked) hs.unchecked
  · refine h.all (fun hp => ?_) hs.checked
    rw [h.active] at hp
    rcases hp with hp | hp <;> cases hp
  · intro y z u v c hu hv hcu hcv
    obtain ⟨rfl, rfl⟩ | ⟨-, hu⟩ := h.cases hu
    · rw [h.unchecked] at hcu
      cases hcu
    · obtain ⟨rfl, rfl⟩ | ⟨-, hv⟩ := h.cases hv
      · rw [h.unchecked] at hcv
        cases hcv
      · exact hs.injective y z u v c hu hv hcu hcv
  · rw [h.begun.next]
    exact h.all (h.begun.bounds.imp_right (·.trans_le h.xmax_le)) hs.bounds
  · intro y z u v hu hv hne hres
    obtain ⟨rfl, rfl⟩ | ⟨-, hu⟩ := h.cases hu
    · -- the new snapshot has every running transaction as unresolved
      obtain ⟨rfl, -⟩ | ⟨hz, hv⟩ := h.cases hv
      · exact absurd rfl hne
      · refine ⟨fun hrun => ?_, fun c hc => ?_⟩
        · have := h.begun.unresolved z (.inl (hs.running z v hv (not_not.2 hrun))) hz
          rw [hres] at this
          cases this
        · rw [h.beginAt]
          exact (hs.checkedAt z v c hv hc).2
    · obtain ⟨rfl, -⟩ | ⟨-, hv⟩ := h.cases hv
      · rw [hx.unresolved y u hu] at hres
        cases hres
      · exact hs.resolved y z u v hu hv hne hres
  · intro k hk
    rw [h.horizons] at hk
    rw [h.begun.next]
    exact (hs.horizons k hk).imp_right (h.all fun _ => hx.horizons k hk)
  · intro y st hst
    rw [h.begun.clog] at hst
    rw [h.txns y, h.ready]
    split_ifs with hyx
    · exact .inr ⟨t, rfl⟩
    · exact (hs.logged y st hst).imp_left fun hr =>
        ⟨List.mem_filter.2 ⟨hr.1, decide_eq_true hyx⟩, hr.2⟩
  · intro y hy
    rw [h.loose] at hy
    rw [h.begun.clog]
    obtain ⟨hp, hnone⟩ := hs.loose y hy
    refine ⟨h.pending hp ?_ (.inr (h.clear y hy)), hnone⟩
    rintro rfl
    cases hnone.symm.trans hlog
  · intro y hy
    rw [h.ready] at hy
    rw [h.begun.clog, h.begun.inProgress]
    obtain ⟨hy, hyx⟩ := List.mem_filter.1 hy
    obtain ⟨hp, hin, hr⟩ := hs.ready y hy
    exact ⟨h.pending hp (of_decide_eq_true hyx) (.inl hr), hin, hr⟩

end Opened

/-! ## The conflict graph -/

/-- The transaction passed its commit check before the other one began. -/
def Txn.DecidedBefore (t u : Txn) : Prop := ∃ c, t.checkAt = some c ∧ c < u.beginAt

structure GraphInv (s : State ι) : Prop where
  known : ∀ x e, s.ssi.lookup x = some e → ∃ t, s.txns.lookup x = some t
  horizon : ∀ x e h, s.ssi.lookup x = some e → e.committed = true → e.commitHorizon = some h →
    ∃ t, s.txns.lookup x = some t ∧ t.checkAt ≠ none ∧
      ∀ y u, s.txns.lookup y = some u → h ≤ y → t.DecidedBefore u
  present : ∀ x t, s.txns.lookup x = some t → t.Alive → (∃ e, s.ssi.lookup x = some e) ∨
    t.checkAt ≠ none ∧ ∀ y u, s.txns.lookup y = some u → ¬ u.Over → t.DecidedBefore u
  locks : ∀ x t e, s.txns.lookup x = some t → s.ssi.lookup x = some e →
    ∀ r ∈ t.locks, r ∈ e.predicateLocks
  edges : ∀ a b, (a, b) ∈ s.edges → a ≠ b ∧ ∃ t u, s.txns.lookup a = some t ∧
    s.txns.lookup b = some u ∧ ∀ c, u.checkAt = some c → t.beginAt < c
  conflictOut : ∀ a b e, s.ssi.lookup a = some e → ((a, b) ∈ s.edges ↔ b ∈ e.inConflictOut)
  conflictIn : ∀ a b e, s.ssi.lookup b = some e → (a, b) ∈ s.edges → a ∈ e.inConflictIn
  locked : ∀ a b t u, s.txns.lookup a = some t → s.txns.lookup b = some u → a ≠ b → t.Alive →
    u.Alive → t.handle.snapshot.xidInProgress b = true → Overlaps t.locks u →
    (a, b) ∈ s.edges ∨ t.DecidedBefore u
  pivot : ∀ a b c t u v k l, s.txns.lookup a = some t → s.txns.lookup b = some u →
    s.txns.lookup c = some v → (a, b) ∈ s.edges → (b, c) ∈ s.edges → t.Alive → u.Alive → v.Alive →
    u.checkAt = some k → v.checkAt = some l → l < k → u.beginAt < l → t.DecidedBefore u

theorem not_over_of_active (h : t.phase = .active) : ¬ t.Over := by
  rw [Txn.Over, h]
  exact not_not.2 rfl

theorem alive_of_active (h : t.phase = .active) : t.Alive := by
  rw [Txn.Alive, h]
  exact ⟨nofun, nofun⟩

/-- An active transaction has its entry. -/
theorem GraphInv.exists_entry (hg : GraphInv s) (hs : TxnInv s) (ht : s.txns.lookup x = some t)
    (hp : t.phase = .active) : ∃ e, s.ssi.lookup x = some e := by
  refine (hg.present x t ht (alive_of_active hp)).resolve_right fun h => ?_
  exact h.1 (hs.unchecked x t ht hp)

/-- The invariant reads only the transactions, the entries and the edges. -/
theorem GraphInv.congr (hg : GraphInv s) (ht : s'.txns = s.txns) (hssi : s'.ssi = s.ssi)
    (he : s'.edges = s.edges) : GraphInv s' := by
  obtain ⟨h₁, h₂, h₃, h₄, h₅, h₆, h₇, h₈, h₉⟩ := hg
  rw [← ht, ← hssi] at h₁ h₂ h₃ h₄
  rw [← ht, ← he] at h₅ h₈ h₉
  rw [← hssi, ← he] at h₆ h₇
  exact ⟨h₁, h₂, h₃, h₄, h₅, h₆, h₇, h₈, h₉⟩

theorem GraphInv.collected (hg : GraphInv s) (hs : TxnInv s) {k : ℕ} (hk : k ∈ s.horizons) :
    GraphInv { s with ssi := s.ssi.collectGarbage k } := by
  have hlook : ∀ x e, (s.ssi.collectGarbage k).lookup x = some e → s.ssi.lookup x = some e := by
    intro x e he
    rw [SsiManager.lookup_collectGarbage] at he
    exact (filter_eq_some_iff.1 he).1
  refine ⟨fun x e he => hg.known x e (hlook x e he),
    fun x e h he => hg.horizon x e h (hlook x e he), ?_,
    fun x t e ht he => hg.locks x t e ht (hlook x e he), hg.edges,
    fun a b e he => hg.conflictOut a b e (hlook a e he),
    fun a b e he => hg.conflictIn a b e (hlook b e he), hg.locked, hg.pivot⟩
  intro x t ht halive
  rcases hg.present x t ht halive with ⟨e, he⟩ | hdec
  · show (∃ e, (s.ssi.collectGarbage k).lookup x = some e) ∨ _
    rw [SsiManager.lookup_collectGarbage, he]
    cases hr : e.retired k with
    | false => exact .inl ⟨e, if_pos (congrArg (! ·) hr)⟩
    | true =>
      -- every running transaction is at or above the sampled horizon
      simp only [SsiState.retired, Bool.and_eq_true, any_eq_true, decide_eq_true_eq] at hr
      obtain ⟨hc, h, hh, hle⟩ := hr
      obtain ⟨t', ht', hne, hdec⟩ := hg.horizon x e h he hc hh
      obtain rfl : t = t' := mem_unique ht ht'
      refine .inr ⟨hne, fun y u hu hrun => hdec y u hu ?_⟩
      exact hle.trans ((hs.horizons k hk).2 y u hu hrun)
  · exact .inr hdec

theorem GraphInv.opened (hg : GraphInv s) (hs : TxnInv s) {xmax : ℕ} (h : Opened s s' x xmax t)
    (hssi : s'.ssi = s.ssi.registerXid x) (he : s'.edges = s.edges) : GraphInv s' := by
  have hnew : ∀ u, s.txns.lookup x ≠ some u := fun u hu => by
    cases (hs.ready x h.was).1.fresh.symm.trans hu
  have hnone : s.ssi.lookup x = none := by
    cases hl : s.ssi.lookup x with
    | none => rfl
    | some e =>
      obtain ⟨u, hu⟩ := hg.known _ e hl
      exact absurd hu (hnew u)
  have hold : ∀ y u, s.txns.lookup y = some u → s'.txns.lookup y = some u := by
    intro y u hu
    rw [h.txns y, if_neg]
    · exact hu
    · rintro rfl
      exact hnew u hu
  have hentry : ∀ y e, s'.ssi.lookup y = some e →
      y = x ∧ e = {} ∨ s.ssi.lookup y = some e := by
    intro y e hy
    rw [hssi, SsiManager.lookup_registerXid] at hy
    split_ifs at hy with hyx
    · subst hyx
      rw [hnone] at hy
      exact .inl ⟨rfl, (some.inj hy).symm⟩
    · exact .inr hy
  have hedge : ∀ a b, (a, b) ∈ s.edges → a ≠ x ∧ b ≠ x := by
    intro a b hab
    obtain ⟨-, u, v, hu, hv, -⟩ := hg.edges a b hab
    exact ⟨fun ha => hnew u (ha ▸ hu), fun hb => hnew v (hb ▸ hv)⟩
  have hdecided : ∀ u, (∃ y, s.txns.lookup y = some u) → u.checkAt ≠ none → u.DecidedBefore t := by
    rintro u ⟨y, hu⟩ hne
    obtain ⟨c, hc⟩ := ne_none_iff_exists'.1 hne
    exact ⟨c, hc, h.beginAt ▸ (hs.checkedAt y u c hu hc).2⟩
  refine ⟨?_, ?_, ?_, ?_, ?_, ?_, ?_, ?_, ?_⟩
  · intro y e hy
    obtain ⟨rfl, -⟩ | hy := hentry y e hy
    · exact ⟨t, by rw [h.txns, if_pos rfl]⟩
    · obtain ⟨u, hu⟩ := hg.known y e hy
      exact ⟨u, hold y u hu⟩
  · intro y e k hy hc hk
    obtain ⟨rfl, rfl⟩ | hy := hentry y e hy
    · cases hc
    · obtain ⟨u, hu, hne, hdec⟩ := hg.horizon y e k hy hc hk
      exact ⟨u, hold y u hu, hne, h.all (fun _ => hdecided u ⟨y, hu⟩ hne) hdec⟩
  · intro y u hu halive
    rw [hssi, SsiManager.lookup_registerXid]
    obtain ⟨rfl, rfl⟩ | ⟨hne, hu⟩ := h.cases hu
    · rw [if_pos rfl]
      exact .inl ⟨_, rfl⟩
    · rw [if_neg hne]
      exact (hg.present y u hu halive).imp_right fun hdec =>
        ⟨hdec.1, h.all (fun _ => hdecided u ⟨y, hu⟩ hdec.1) hdec.2⟩
  · intro y u e hu hy r hr
    obtain ⟨rfl, rfl⟩ | ⟨hne, hu⟩ := h.cases hu
    · rw [h.locks] at hr
      cases hr
    · obtain ⟨rfl, -⟩ | hy := hentry y e hy
      · exact absurd rfl hne
      · exact hg.locks y u e hu hy r hr
  · intro a b hab
    rw [he] at hab
    obtain ⟨hne, u, v, hu, hv, hlt⟩ := hg.edges a b hab
    exact ⟨hne, u, v, hold a u hu, hold b v hv, hlt⟩
  · intro a b e hy
    rw [he]
    obtain ⟨rfl, rfl⟩ | hy := hentry a e hy
    · exact ⟨fun hab => absurd rfl (hedge _ b hab).1, nofun⟩
    · exact hg.conflictOut a b e hy
  · intro a b e hy hab
    rw [he] at hab
    obtain ⟨rfl, -⟩ | hy := hentry b e hy
    · exact absurd rfl (hedge a _ hab).2
    · exact hg.conflictIn a b e hy hab
  · intro a b u v hu hv hne hua hva hsnap hover
    rw [he]
    obtain ⟨rfl, rfl⟩ | ⟨-, hu⟩ := h.cases hu
    · obtain ⟨held, hheld, -⟩ := hover
      rw [h.locks] at hheld
      cases hheld
    · obtain ⟨rfl, rfl⟩ | ⟨-, hv⟩ := h.cases hv
      · obtain ⟨-, -, tag, htag, -⟩ := hover
        rw [h.writeTags] at htag
        cases htag
      · exact hg.locked a b u v hu hv hne hua hva hsnap hover
  · intro a b c u v w k l hu hv hw hab hbc
    rw [he] at hab hbc
    have hlift : ∀ {y u}, y ≠ x → s'.txns.lookup y = some u →
        s.txns.lookup y = some u := by
      intro y u hne hu
      obtain ⟨rfl, -⟩ | ⟨-, hu⟩ := h.cases hu
      · exact absurd rfl hne
      · exact hu
    exact hg.pivot a b c u v w k l (hlift (hedge a b hab).1 hu) (hlift (hedge a b hab).2 hv)
      (hlift (hedge b c hbc).2 hw) hab hbc

theorem Later.decidedBefore {t₀ u₀ : Txn} (ht : Later t₀ t) (hu : Later u₀ u)
    (h : t₀.DecidedBefore u₀) : t.DecidedBefore u := by
  obtain ⟨c, hc, hlt⟩ := h
  exact ⟨c, ht.checkAt c hc, hu.beginAt ▸ hlt⟩

theorem Later.checked {t₀ : Txn} (ht : Later t₀ t) (h : t₀.checkAt ≠ none) : t.checkAt ≠ none := by
  obtain ⟨c, hc⟩ := ne_none_iff_exists'.1 h
  rw [ht.checkAt c hc]
  exact nofun

/-- What the step does to the entries and the edges: it can drop the transaction's own entry when
the transaction is rolled back, mark it committed, and record antidependencies of the readers `rs`
on the transaction. -/
structure Entries (s s' : State ι) (x : ℕ) (t' : Txn) (rs : List ℕ) : Prop where
  old : ∀ y e', s'.ssi.lookup y = some e' → ∃ e, s.ssi.lookup y = some e ∧
    (∀ r ∈ e.predicateLocks, r ∈ e'.predicateLocks) ∧
    (e'.committed = e.committed ∧ e'.commitHorizon = e.commitHorizon ∨
      y = x ∧ t'.checkAt ≠ none ∧
        ∃ k, e'.commitHorizon = some k ∧ ∀ z u, s.txns.lookup z = some u → z < k) ∧
    (∀ z, z ∈ e'.inConflictOut ↔ z ∈ e.inConflictOut ∨ z = x ∧ y ∈ rs) ∧
    ∀ z, z ∈ e'.inConflictIn ↔ z ∈ e.inConflictIn ∨ y = x ∧ z ∈ rs
  new : ∀ y e, s.ssi.lookup y = some e → y ≠ x ∨ t'.Alive → ∃ e', s'.ssi.lookup y = some e'
  edges : ∀ a b, (a, b) ∈ s'.edges ↔ (a, b) ∈ s.edges ∨ b = x ∧ a ∈ rs
  readers : ∀ a ∈ rs, a ≠ x ∧ t'.checkAt = none ∧ ∃ u, s.txns.lookup a = some u

end Ssi

end UltraSql
