import UltraSql.Txn.Timeline

/-!
# What holds of the transactions over time

The invariant says of each transaction which status its XIDs have and which ones its snapshot
counts as its own, and of each two transactions that they share no XID and which XIDs of the one
the snapshot of the other has as resolved.

**Theorem (`Inv.step`).** Every step keeps the invariant.

**Theorem (`Inv.committedBefore_iff`).** A snapshot has an XID of another transaction as committed
exactly when that transaction committed before the snapshot was taken, and had not rolled the XID
back.
-/

namespace UltraSql.Timeline

open TransactionManager List SubtxnManager FiniteMap Option
open Savepoints (Own txnXids mem_txnXids)
open Nat (le_succ lt_succ_self)

variable {s s' : State} {x y z : ℕ} {c c' d : Client} {m m' : TransactionManager}
  {t t' : Transaction} {fresh dead : List ℕ} {p : Phase} {st : XidStatus}

/-- What the invariant says of one transaction by itself. -/
structure ClientInv (s : State) (x : ℕ) (c : Client) : Prop where
  xid : c.handle.xid = x
  range : ∀ y ∈ txnXids c.handle, 3 ≤ y ∧ y < s.mgr.nextXid
  least : ∀ y ∈ txnXids c.handle, x ≤ y
  increasing : c.handle.subtxnStack.stack.Pairwise fun a b => b.xid < a.xid
  above : ∀ y, y ∈ c.handle.subtxnStack.liveStackSubxids ∨ y ∈ c.handle.subtxnStack.mergedUp →
    c.handle.xid < y
  disjoint : ∀ y ∈ c.handle.subtxnStack.rolledBack, ¬ Own c.handle y
  own : ∀ y, Own c.handle y → s.mgr.clog.lookup y = some c.phase.status
  ownEnded : ∀ y, Own c.handle y → s.ended y = s.ended x
  open_iff : c.phase.status = .inProgress ↔ s.ended x = none
  rolled : ∀ y ∈ c.handle.subtxnStack.rolledBack,
    s.mgr.clog.lookup y = some .aborted ∧ s.ended y ≠ none
  past : ∀ y ∈ txnXids c.handle, ∀ e, s.ended y = some e → e < s.clock
  current : c.handle.snapshot.currentXid = x
  live : ∀ y, y ∈ c.handle.snapshot.ownLiveSubxids ↔ y ∈ c.handle.subtxnStack.selfSubxids
  rolledBack : ∀ y, y ∈ c.handle.snapshot.ownRolledBackSubxids ↔
    y ∈ c.handle.subtxnStack.rolledBack
  bounds : c.handle.snapshot.xmin ≤ c.handle.snapshot.xmax ∧
    c.handle.snapshot.xmax ≤ s.mgr.nextXid
  view : c.view ≤ s.clock
  viewEnded : ∀ e, s.ended x = some e → c.view ≤ e
  command : c.handle.snapshot.currentCommand = c.handle.currentCommand
  floor : c.phase.status = .inProgress →
    s.mgr.snapshotXmins.lookup x = some c.handle.snapshot.xmin

/-- What the invariant says of an XID that belongs to no transaction yet. -/
structure Pending (s : State) (y : ℕ) : Prop where
  range : 3 ≤ y ∧ y < s.mgr.nextXid
  unended : s.ended y = none
  foreign : ∀ x c, s.clients.lookup x = some c →
    y ∉ txnXids c.handle ∧ c.handle.snapshot.xidInProgress y = true

structure Inv (s : State) : Prop where
  next : 3 ≤ s.mgr.nextXid
  unused : ∀ y, s.mgr.nextXid ≤ y → s.ended y = none
  logged : ∀ y, s.mgr.nextXid ≤ y → s.mgr.clog.lookup y = none
  client : ∀ x c, s.clients.lookup x = some c → ClientInv s x c
  apart : ∀ x y c d, s.clients.lookup x = some c → s.clients.lookup y = some d → x ≠ y →
    ∀ z ∈ txnXids c.handle, z ∉ txnXids d.handle
  resolved : ∀ x y c d, s.clients.lookup x = some c → s.clients.lookup y = some d → x ≠ y →
    ∀ z ∈ txnXids d.handle, c.handle.snapshot.xidInProgress z = false ↔
      ∃ e, s.ended z = some e ∧ e < c.view
  running : ∀ x c, s.clients.lookup x = some c → ∀ y ∈ txnXids c.handle,
    y ∈ s.mgr.inProgress ↔ s.mgr.clog.lookup y = some .inProgress
  known : ∀ y ∈ s.mgr.inProgress,
    y ∈ s.ready ∨ ∃ x c, s.clients.lookup x = some c ∧ y ∈ txnXids c.handle
  parents : ∀ y p, s.mgr.subxidParent.lookup y = some p →
    ∃ c, s.clients.lookup p = some c ∧ y ∈ txnXids c.handle
  pending : ∀ y, y ∈ s.loose ∨ y ∈ s.ready → Pending s y
  ready : ∀ y ∈ s.ready,
    y ∉ s.loose ∧ s.mgr.clog.lookup y = some .inProgress ∧ y ∈ s.mgr.inProgress

theorem inv_init : Inv {} := by
  refine ⟨le_rfl, fun _ _ => rfl, fun _ _ => AList.lookup_empty _, nofun,
    nofun, nofun, nofun, fun y h => (not_mem_nil h).elim, nofun, fun y h => ?_,
    fun y h => (not_mem_nil h).elim⟩
  exact (h.elim not_mem_nil not_mem_nil).elim

/-! ## Consequences -/

theorem Phase.isCommitted_status {p : Phase} : p.status.isCommitted = true ↔ p = .committed := by
  cases p <;> simp [Phase.status, XidStatus.isCommitted]

section

variable (hs : Inv s) (hc : s.clients.lookup x = some c)
include hs hc

theorem Inv.status_eq (hy : y ∈ txnXids c.handle) :
    s.mgr.status y = (s.mgr.clog.lookup y).getD .inProgress := by
  have h := hs.client x c hc
  have h3 := (h.range y hy).1
  unfold TransactionManager.status
  rw [if_neg (by omega), if_neg (by omega)]
  dsimp only
  split_ifs with hin
  · split
    · rename_i p hp
      split_ifs with hne
      · -- a subtransaction that runs belongs to a transaction that runs
        obtain ⟨d, hd, hyd⟩ := hs.parents y p hp
        have hpx : x = p := by
          by_contra hxp
          exact hs.apart x p c d hc hd hxp y hy hyd
        subst hpx
        obtain rfl := mem_unique hc hd
        have hown : Own c.handle y := by
          refine (mem_txnXids.1 hy).resolve_right fun hr => ?_
          rw [(h.rolled y hr).1] at hin
          cases hin
        have hst : c.phase.status = .inProgress := by
          rw [h.own y hown] at hin
          exact hin
        rw [h.own x (.inl h.xid.symm), hst, hin]
        rfl
      · rfl
    · rfl
  · rfl

theorem Inv.status_own (hy : Own c.handle y) : s.mgr.status y = c.phase.status := by
  rw [hs.status_eq hc hy.mem, (hs.client x c hc).own y hy]
  rfl

theorem Inv.status_rolled (hy : y ∈ c.handle.subtxnStack.rolledBack) :
    s.mgr.status y = .aborted := by
  rw [hs.status_eq hc (mem_txnXids.2 (.inr hy)), ((hs.client x c hc).rolled y hy).1]
  rfl

end

section

variable (h : ClientInv s x c)
include h

theorem ClientInv.self_mem : x ∈ txnXids c.handle :=
  Own.mem (.inl h.xid.symm)

theorem ClientInv.self_range : 3 ≤ x ∧ x < s.mgr.nextXid :=
  h.range x h.self_mem

/-- The XIDs of a transaction have an entry in the commit log, and end when it says so. -/
theorem ClientInv.ended_iff (hy : y ∈ txnXids c.handle) :
    s.ended y = none ↔ s.mgr.clog.lookup y = some .inProgress := by
  rcases mem_txnXids.1 hy with ho | hr
  · rw [h.own y ho, h.ownEnded y ho, ← h.open_iff, some.injEq]
  · obtain ⟨ha, he⟩ := h.rolled y hr
    simp [ha, he]

/-- The snapshot counts the transaction's own XIDs as current. -/
theorem ClientInv.isCurrentXid_iff : c.handle.snapshot.isCurrentXid y = true ↔ Own c.handle y := by
  rw [Snapshot.isCurrentXid_iff, h.current, h.live, mem_selfSubxids, Own, h.xid]
  constructor
  · rintro (hy | ⟨hy, -⟩)
    · exact .inl hy
    · exact .inr hy
  · rintro (hy | hy)
    · exact .inl hy
    · exact .inr ⟨hy, fun hr => h.disjoint y hr (.inr hy)⟩

theorem ClientInv.rolledBack_iff :
    c.handle.snapshot.ownSubxidRolledBack y = true ↔ y ∈ c.handle.subtxnStack.rolledBack := by
  rw [Snapshot.ownSubxidRolledBack_iff, h.rolledBack]

end

theorem ne_of_phase (hc : s.clients.lookup x = some c) (hd : s.clients.lookup y = some d)
    (h : d.phase ≠ c.phase) : y ≠ x := by
  rintro rfl
  obtain rfl := mem_unique hc hd
  exact h rfl

section

variable (hs : Inv s) (hc : s.clients.lookup x = some c)

include hs hc

theorem Inv.lt_nextXid : x < s.mgr.nextXid := (hs.client x c hc).self_range.2

theorem Inv.ne_zero : x ≠ 0 := by
  have := (hs.client x c hc).self_range.1
  omega

theorem Inv.ended_lt {e : ℕ} (he : s.ended x = some e) : e < s.clock :=
  (hs.client x c hc).past x (hs.client x c hc).self_mem e he

theorem Inv.ended_eq_none (hp : c.phase = .running) : s.ended x = none :=
  (hs.client x c hc).open_iff.1 (by rw [hp]; rfl)

theorem Inv.ne_of_ended (hp : c.phase = .running) {e : ℕ} (he : s.ended y = some e) : y ≠ x := by
  rintro rfl
  rw [hs.ended_eq_none hc hp] at he
  cases he

theorem Inv.exists_ended (hp : c.phase = .committed) : ∃ e, s.ended x = some e := by
  refine ne_none_iff_exists'.1 fun hnone => ?_
  have hopen := (hs.client x c hc).open_iff.2 hnone
  rw [hp] at hopen
  cases hopen

end

/-! ## Steps of one transaction -/

/-- The state after a step, with the clock moved on. -/
def State.tick (s s₁ : State) : State := { s₁ with clock := s.clock + 1 }

/-- The XIDs of a transaction, none before it begins. -/
def State.xidsOf (s : State) (x : ℕ) : List ℕ :=
  match s.clients.lookup x with
  | some c => txnXids c.handle
  | none => []

theorem xidsOf_eq (hc : s.clients.lookup x = some c) : s.xidsOf x = txnXids c.handle := by
  rw [State.xidsOf, hc]

theorem exists_of_mem_xidsOf (hz : z ∈ s.xidsOf x) :
    ∃ c, s.clients.lookup x = some c ∧ z ∈ txnXids c.handle := by
  unfold State.xidsOf at hz
  split at hz
  · rename_i c hc
    exact ⟨c, hc, hz⟩
  · cases hz

/-- What a step of the transaction `x` leaves alone. -/
structure Change (s s' : State) (x : ℕ) (c : Client) : Prop where
  clients : ∀ y, s'.clients.lookup y = if y = x then some c else s.clients.lookup y
  next : s'.mgr.nextXid = s.mgr.nextXid
  keeps : ∀ z ∈ s.xidsOf x, z ∈ txnXids c.handle
  fresh : ∀ z ∈ txnXids c.handle, z ∈ s.xidsOf x ∨ z ∈ s.ready
  clog : ∀ z ∉ s.xidsOf x, s'.mgr.clog.lookup z = s.mgr.clog.lookup z
  inProgress : ∀ z ∉ s.xidsOf x, z ∈ s'.mgr.inProgress ↔ z ∈ s.mgr.inProgress
  ended : ∀ z, s'.ended z = s.ended z ∨
    z ∈ s.xidsOf x ∧ s.ended z = none ∧ s'.ended z = some s.clock
  parents : ∀ z p, s'.mgr.subxidParent.lookup z = some p →
    s.mgr.subxidParent.lookup z = some p ∨ p = x ∧ z ∈ txnXids c.handle
  floors : ∀ y ≠ x, s'.mgr.snapshotXmins.lookup y = s.mgr.snapshotXmins.lookup y
  clock : s'.clock = s.clock + 1
  loose : s'.loose = s.loose
  ready : ∀ z, z ∈ s'.ready ↔ z ∈ s.ready ∧ z ∉ txnXids c.handle

/-- What the invariant says of a transaction is about its own XIDs. -/
theorem ClientInv.frame (hd : ClientInv s y d) (hnext : s.mgr.nextXid ≤ s'.mgr.nextXid)
    (hclog : ∀ z ∈ txnXids d.handle, s'.mgr.clog.lookup z = s.mgr.clog.lookup z)
    (hend : ∀ z ∈ txnXids d.handle, s'.ended z = s.ended z)
    (hfloor : s'.mgr.snapshotXmins.lookup y = s.mgr.snapshotXmins.lookup y)
    (hclock : s'.clock = s.clock + 1) : ClientInv s' y d := by
  have hy := hd.self_mem
  refine ⟨hd.xid, fun z hz => ⟨(hd.range z hz).1, (hd.range z hz).2.trans_le hnext⟩,
    hd.least, hd.increasing, hd.above, hd.disjoint, fun z hz => ?_, fun z hz => ?_, ?_,
    fun z hz => ?_, fun z hz e he => ?_, hd.current, hd.live, hd.rolledBack,
    ⟨hd.bounds.1, hd.bounds.2.trans hnext⟩, ?_, fun e he => ?_, hd.command, fun hst => ?_⟩
  · rw [hclog z hz.mem]
    exact hd.own z hz
  · rw [hend z hz.mem, hend y hy]
    exact hd.ownEnded z hz
  · rw [hend y hy]
    exact hd.open_iff
  · have hz' : z ∈ txnXids d.handle := mem_txnXids.2 (.inr hz)
    rw [hclog z hz', hend z hz']
    exact hd.rolled z hz
  · rw [hend z hz] at he
    rw [hclock]
    exact Nat.lt_succ_of_lt (hd.past z hz e he)
  · rw [hclock]
    exact hd.view.trans (le_succ _)
  · rw [hend y hy] at he
    exact hd.viewEnded e he
  · rw [hfloor]
    exact hd.floor hst

section

variable (h : Change s s' x c)
include h

theorem Change.cases (hd : s'.clients.lookup y = some d) :
    y = x ∧ d = c ∨ y ≠ x ∧ s.clients.lookup y = some d :=
  lookup_cases (h.clients y) hd

/-- The XIDs of other transactions are as before. -/
theorem Change.ended_of_not_mem (hz : z ∉ s.xidsOf x) : s'.ended z = s.ended z :=
  (h.ended z).resolve_right fun hz' => hz hz'.1

theorem Change.other (hd : ClientInv s y d) (hyx : y ≠ x)
    (hold : ∀ z ∈ txnXids d.handle, z ∉ s.xidsOf x) : ClientInv s' y d :=
  hd.frame h.next.ge (fun z hz => h.clog z (hold z hz))
    (fun z hz => h.ended_of_not_mem (hold z hz)) (h.floors y hyx) h.clock

/-- **The frame rule.** It remains to show what concerns the transaction itself. -/
theorem Inv.change (hs : Inv s) (hself : ClientInv s' x c)
    (hres : ∀ y d, s.clients.lookup y = some d → y ≠ x → ∀ z ∈ txnXids d.handle,
      c.handle.snapshot.xidInProgress z = false ↔ ∃ e, s.ended z = some e ∧ e < c.view)
    (hpend : ∀ y, y ∈ s.loose ∨ y ∈ s'.ready → c.handle.snapshot.xidInProgress y = true)
    (hrun : ∀ z ∈ txnXids c.handle,
      z ∈ s'.mgr.inProgress ↔ s'.mgr.clog.lookup z = some .inProgress) : Inv s' := by
  have hx : s'.clients.lookup x = some c := (h.clients x).trans (if_pos rfl)
  have hstay : ∀ {y z d}, s.clients.lookup z = some d → y ∈ txnXids d.handle →
      ∃ d', s'.clients.lookup z = some d' ∧ y ∈ txnXids d'.handle := by
    intro y z d hd hy
    by_cases hzx : z = x
    · subst hzx
      exact ⟨c, hx, h.keeps y (xidsOf_eq hd ▸ hy)⟩
    · exact ⟨d, by rw [h.clients, if_neg hzx, hd], hy⟩
  have hold : ∀ {y d z}, s.clients.lookup y = some d → y ≠ x → z ∈ txnXids d.handle →
      z ∉ s.xidsOf x := by
    intro y d z hd hyx hz hzx
    obtain ⟨c₀, hc₀, hz₀⟩ := exists_of_mem_xidsOf hzx
    exact hs.apart y x d c₀ hd hc₀ hyx z hz hz₀
  have hpnd : ∀ {z}, z ∈ s.loose ∨ z ∈ s.ready → z ∉ s.xidsOf x := by
    intro z hz hzx
    obtain ⟨c₀, hc₀, hz₀⟩ := exists_of_mem_xidsOf hzx
    exact ((hs.pending z hz).foreign x c₀ hc₀).1 hz₀
  have hnew : ∀ {y d z}, s.clients.lookup y = some d → y ≠ x → z ∈ txnXids d.handle →
      z ∉ txnXids c.handle := by
    intro y d z hd hyx hz hzc
    rcases h.fresh z hzc with hzo | hzr
    · exact hold hd hyx hz hzo
    · exact ((hs.pending z (.inr hzr)).foreign y d hd).1 hz
  have hlt : ∀ {z}, z ∈ s.xidsOf x → z < s.mgr.nextXid := by
    intro z hz
    obtain ⟨c₀, hc₀, hz₀⟩ := exists_of_mem_xidsOf hz
    exact ((hs.client x c₀ hc₀).range z hz₀).2
  refine ⟨h.next ▸ hs.next, fun y hy => ?_, fun y hy => ?_, fun y d hd => ?_,
    fun y y' d d' hd hd' hne => ?_, fun y y' d d' hd hd' hne => ?_, fun y d hd => ?_,
    fun y hy => ?_, fun y p hp => ?_, fun y hy => ?_, fun y hy => ?_⟩
  · rw [h.next] at hy
    rw [h.ended_of_not_mem fun hyx => absurd (hlt hyx) (not_lt.2 hy)]
    exact hs.unused y hy
  · rw [h.next] at hy
    rw [h.clog y fun hyx => absurd (hlt hyx) (not_lt.2 hy)]
    exact hs.logged y hy
  · obtain ⟨rfl, rfl⟩ | ⟨hyx, hd⟩ := h.cases hd
    · exact hself
    · exact h.other (hs.client y d hd) hyx fun z => hold hd hyx
  · obtain ⟨rfl, rfl⟩ | ⟨hyx, hd⟩ := h.cases hd
    · obtain ⟨rfl, -⟩ | ⟨hyx', hd'⟩ := h.cases hd'
      · exact absurd rfl hne
      · exact fun z hz hz' => hnew hd' hyx' hz' hz
    · obtain ⟨rfl, rfl⟩ | ⟨hyx', hd'⟩ := h.cases hd'
      · exact fun z hz => hnew hd hyx hz
      · exact hs.apart y y' d d' hd hd' hne
  · intro z hz
    obtain ⟨rfl, rfl⟩ | ⟨hyx, hd⟩ := h.cases hd
    · obtain ⟨rfl, -⟩ | ⟨hyx', hd'⟩ := h.cases hd'
      · exact absurd rfl hne
      · rw [h.ended_of_not_mem (hold hd' hyx' hz)]
        exact hres y' d' hd' hyx' z hz
    · obtain ⟨rfl, rfl⟩ | ⟨hyx', hd'⟩ := h.cases hd'
      · -- the others' snapshots are older than what the step ends or takes
        rcases h.fresh z hz with hzo | hzr
        · obtain ⟨d₀, hd₀, hz₀⟩ := exists_of_mem_xidsOf hzo
          have hiff := hs.resolved y y' d d₀ hd hd₀ hne z hz₀
          rcases h.ended z with he | ⟨-, hnone, he⟩
          · rw [he]
            exact hiff
          · rw [hiff, he, hnone]
            simp only [reduceCtorEq, false_and, exists_false, some.injEq, exists_eq_left',
              false_iff, not_lt]
            exact (hs.client y d hd).view
        · have hp := hs.pending z (.inr hzr)
          rw [h.ended_of_not_mem (hpnd (.inr hzr)), hp.unended, (hp.foreign y d hd).2]
          simp
      · rw [h.ended_of_not_mem (hold hd' hyx' hz)]
        exact hs.resolved y y' d d' hd hd' hne z hz
  · intro z hz
    obtain ⟨rfl, rfl⟩ | ⟨hyx, hd⟩ := h.cases hd
    · exact hrun z hz
    · rw [h.inProgress z (hold hd hyx hz), h.clog z (hold hd hyx hz)]
      exact hs.running y d hd z hz
  · by_cases hyc : y ∈ txnXids c.handle
    · exact .inr ⟨x, c, hx, hyc⟩
    · refine (hs.known y ((h.inProgress y (mt (h.keeps y) hyc)).1 hy)).imp (fun hr => ?_) ?_
      · exact (h.ready y).2 ⟨hr, hyc⟩
      · rintro ⟨z, d, hd, hyd⟩
        exact ⟨z, hstay hd hyd⟩
  · rcases h.parents y p hp with hp | ⟨rfl, hy⟩
    · obtain ⟨d, hd, hy⟩ := hs.parents y p hp
      exact hstay hd hy
    · exact ⟨c, hx, hy⟩
  · have hy' : y ∈ s.loose ∨ y ∈ s.ready :=
      hy.imp (h.loose ▸ ·) fun hr => ((h.ready y).1 hr).1
    have hp := hs.pending y hy'
    refine ⟨h.next ▸ hp.range, (h.ended_of_not_mem (hpnd hy')).trans hp.unended, fun z d hd => ?_⟩
    obtain ⟨rfl, rfl⟩ | ⟨hzx, hd⟩ := h.cases hd
    · refine ⟨fun hyc => ?_, hpend y (hy.imp_left (h.loose ▸ ·))⟩
      rcases hy with hl | hr
      · rcases h.fresh y hyc with hyo | hyr
        · exact hpnd hy' hyo
        · exact (hs.ready y hyr).1 (h.loose ▸ hl)
      · exact ((h.ready y).1 hr).2 hyc
    · exact hp.foreign z d hd
  · have hr := ((h.ready y).1 hy).1
    rw [h.loose, h.clog y (hpnd (.inr hr)), h.inProgress y (hpnd (.inr hr))]
    exact hs.ready y hr

end

/-! ### New XIDs -/

theorem inv_allocate (hs : Inv s) :
    Inv (s.tick { s with mgr := s.mgr.allocXid, loose := s.mgr.nextXid :: s.loose }) := by
  have hne : ∀ {x c z}, s.clients.lookup x = some c → z ∈ txnXids c.handle → z ≠ s.mgr.nextXid :=
    fun hc hz => ((hs.client _ _ hc).range _ hz).2.ne
  refine ⟨hs.next.trans (le_succ _), fun y hy => hs.unused y ((le_succ _).trans hy),
    fun y hy => hs.logged y ((le_succ _).trans hy), fun x c hc => ?_, hs.apart, hs.resolved,
    hs.running, hs.known, hs.parents, fun y hy => ?_, fun y hy => ?_⟩
  · exact (hs.client x c hc).frame (le_succ _) (fun _ _ => rfl) (fun _ _ => rfl) rfl rfl
  · by_cases hyn : y = s.mgr.nextXid
    · subst hyn
      refine ⟨⟨hs.next, lt_succ_self _⟩, hs.unused _ le_rfl, fun x c hc => ⟨fun hy => ?_, ?_⟩⟩
      · exact hne hc hy rfl
      · have hb := (hs.client x c hc).bounds
        exact Snapshot.xidInProgress_iff.2 ⟨hb.1.trans hb.2, .inl hb.2⟩
    · have hp := hs.pending y (hy.imp_left fun hy => (mem_cons.1 hy).resolve_left hyn)
      exact ⟨⟨hp.range.1, hp.range.2.trans (lt_succ_self _)⟩, hp.unended, hp.foreign⟩
  · have hlt := (hs.pending y (.inr hy)).range.2
    exact ⟨fun hl => (mem_cons.1 hl).elim hlt.ne (hs.ready y hy).1, (hs.ready y hy).2⟩

theorem inv_publish (hs : Inv s) (hx : x ∈ s.loose) :
    Inv (s.tick { s with
      mgr := (s.mgr.clogInsert x).publish x
      loose := s.loose.filter (· ≠ x)
      ready := x :: s.ready }) := by
  have hp := hs.pending x (.inl hx)
  have hne : ∀ {y c z}, s.clients.lookup y = some c → z ∈ txnXids c.handle → z ≠ x := by
    rintro y c z hc hz rfl
    exact (hp.foreign y c hc).1 hz
  have hclog : ∀ z, ((s.mgr.clogInsert x).publish x).clog.lookup z =
      if z = x then some .inProgress else s.mgr.clog.lookup z := fun z => lookup_insert_eq _ _ _ _
  refine ⟨hs.next, hs.unused, fun y hy => ?_, fun y c hc => ?_, hs.apart, hs.resolved,
    fun y c hc z hz => ?_, fun y hy => ?_, hs.parents, fun y hy => ?_, fun y hy => ?_⟩
  · exact (hclog y).trans ((if_neg (hp.range.2.trans_le hy).ne').trans (hs.logged y hy))
  · exact (hs.client y c hc).frame le_rfl (fun z hz => (hclog z).trans (if_neg (hne hc hz)))
      (fun _ _ => rfl) rfl rfl
  · refine (mem_inProgress_publish.trans (or_iff_right (hne hc hz))).trans ?_
    exact (hs.running y c hc z hz).trans (by rw [← (hclog z).trans (if_neg (hne hc hz))]; rfl)
  · rcases mem_inProgress_publish.1 hy with rfl | hy
    · exact .inl mem_cons_self
    · exact (hs.known y hy).imp_left (mem_cons_of_mem _)
  · have hy' : y ∈ s.loose ∨ y ∈ s.ready := by
      rcases hy with hy | hy
      · exact .inl (mem_filter.1 hy).1
      · rcases mem_cons.1 hy with rfl | hy
        · exact .inl hx
        · exact .inr hy
    have hp := hs.pending y hy'
    exact ⟨hp.range, hp.unended, hp.foreign⟩
  · show y ∉ filter _ _ ∧ ((s.mgr.clogInsert x).publish x).clog.lookup y = _ ∧ _
    rw [hclog]
    by_cases hyx : y = x
    · rw [hyx, if_pos rfl]
      exact ⟨by simp, rfl, mem_inProgress_publish.2 (.inl rfl)⟩
    · have hr := hs.ready y ((mem_cons.1 hy).resolve_left hyx)
      rw [if_neg hyx]
      exact ⟨fun hl => hr.1 (mem_filter.1 hl).1, hr.2.1, mem_inProgress_publish.2 (.inr hr.2.2)⟩

/-! ### Phases and snapshots -/

/-- A foreign XID below `xmax` is resolved for a new snapshot unless it runs. -/
theorem snapshotSection_resolved {cmd xmax : ℕ} {own : OwnSubxids} (hz : z ≠ x)
    (hlive : z ∉ own.live) : (m.snapshotSection x cmd xmax own).xidInProgress z = false ↔
      z < xmax ∧ z ∉ m.inProgress := by
  rw [← not_iff_not, Bool.not_eq_false, not_and_not_right, Snapshot.xidInProgress_iff,
    snapshotSection_xmax, mem_xip_snapshotSection, mem_foreignActive]
  constructor
  · rintro ⟨-, hge | hin⟩ hlt
    · exact absurd hlt (not_lt.2 hge)
    · exact hin.1
  · intro h
    rcases le_or_gt xmax z with hge | hlt
    · exact ⟨snapshotSection_xmin_le_xmax.trans hge, .inl hge⟩
    · have hin : z ∈ m.foreignActive x xmax own := mem_foreignActive.2 ⟨h hlt, hz, hlive, hlt⟩
      exact ⟨snapshotSection_xmin_le hin, .inr (mem_foreignActive.1 hin)⟩

theorem Inv.not_running_iff (hs : Inv s) (hd : s.clients.lookup y = some d)
    (hz : z ∈ txnXids d.handle) : z ∉ s.mgr.inProgress ↔ ∃ e, s.ended z = some e ∧ e < s.clock := by
  have hdi := hs.client y d hd
  rw [hs.running y d hd z hz, ← hdi.ended_iff hz, ← ne_eq, ne_none_iff_exists']
  exact ⟨fun ⟨e, he⟩ => ⟨e, he, hdi.past z hz e he⟩, fun ⟨e, he, _⟩ => ⟨e, he⟩⟩

section

variable {cmd xmax : ℕ} {own : OwnSubxids} (hs : Inv s) (hclear : s.Clear xmax)
include hs hclear

/-- **A snapshot of a clear moment** has what has ended as resolved. -/
theorem Inv.resolved_of_clear (hd : s.clients.lookup y = some d) (hz : z ∈ txnXids d.handle)
    (hzx : z ≠ x) (hzl : z ∉ own.live) :
    (s.mgr.snapshotSection x cmd xmax own).xidInProgress z = false ↔
      ∃ e, s.ended z = some e ∧ e < s.clock := by
  rw [snapshotSection_resolved hzx hzl, ← hs.not_running_iff hd hz, and_iff_right_iff_imp,
    hs.not_running_iff hd hz]
  rintro ⟨e, he, -⟩
  refine not_le.1 fun hle => ?_
  rw [hclear.2 z ((hs.client y d hd).range z hz).2 hle] at he
  cases he

theorem Inv.pending_of_clear (hy : y ∈ s.loose ∨ y ∈ s.ready) (hyx : y ≠ x)
    (hyl : y ∉ own.live) : (s.mgr.snapshotSection x cmd xmax own).xidInProgress y = true := by
  rw [← Bool.not_eq_false, snapshotSection_resolved hyx hyl]
  rintro ⟨hlt, hin⟩
  rcases hy with hy | hy
  · exact absurd hlt (not_lt.2 (hclear.1 y hy))
  · exact hin (hs.ready y hy).2.2

end

theorem lookup_setClient (s : State) (x y : ℕ) (c : Client) :
    (s.setClient x c).clients.lookup y = if y = x then some c else s.clients.lookup y :=
  lookup_insert_eq _ _ _ _

theorem whenRunning_eq_some {f : Client → Option State} (h : s.whenRunning x f = some s') :
    ∃ c, s.clients.lookup x = some c ∧ c.phase = .running ∧ f c = some s' := by
  unfold State.whenRunning at h
  split at h
  · rename_i c hc
    split_ifs at h with hp
    exact ⟨c, hc, hp, h⟩
  · cases h

section

variable (hs : Inv s) (hc : s.clients.lookup x = some c)
include hs hc

/-- A step that changes at most the phase of a running transaction and its snapshot. -/
theorem Inv.update {floors : FiniteMap ℕ ℕ} {sn : Snapshot} {command view : ℕ}
    (hp : p.status = c.phase.status) (hcur : sn.currentXid = x)
    (hlive : ∀ y, y ∈ sn.ownLiveSubxids ↔ y ∈ c.handle.subtxnStack.selfSubxids)
    (hroll : ∀ y, y ∈ sn.ownRolledBackSubxids ↔ y ∈ c.handle.subtxnStack.rolledBack)
    (hb : sn.xmin ≤ sn.xmax ∧ sn.xmax ≤ s.mgr.nextXid) (hview : view ≤ s.clock)
    (hviewEnded : ∀ e, s.ended x = some e → view ≤ e) (hcmd : sn.currentCommand = command)
    (hfloors : ∀ y ≠ x, floors.lookup y = s.mgr.snapshotXmins.lookup y)
    (hfloor : c.phase.status = .inProgress → floors.lookup x = some sn.xmin)
    (hres : ∀ y d, s.clients.lookup y = some d → y ≠ x → ∀ z ∈ txnXids d.handle,
      sn.xidInProgress z = false ↔ ∃ e, s.ended z = some e ∧ e < view)
    (hpend : ∀ y, y ∈ s.loose ∨ y ∈ s.ready → sn.xidInProgress y = true) :
    Inv (s.tick { s.setClient x
      { handle := { c.handle with snapshot := sn, currentCommand := command }
        view := view
        phase := p } with mgr := { s.mgr with snapshotXmins := floors } }) := by
  have hci := hs.client x c hc
  refine hs.change (x := x) ⟨fun y => lookup_setClient s x y _, rfl,
    fun z hz => xidsOf_eq hc ▸ hz, fun z hz => .inl ((xidsOf_eq hc).symm ▸ hz), fun _ _ => rfl,
    fun _ _ => .rfl, fun _ => .inl rfl, fun _ _ hp => .inl hp, hfloors, rfl, rfl, fun z => ?_⟩ ?_
    hres hpend fun z hz => hs.running x c hc z hz
  · exact (and_iff_left_of_imp fun hz => ((hs.pending z (.inr hz)).foreign x c hc).1).symm
  refine ⟨hci.xid, hci.range, hci.least, hci.increasing, hci.above, hci.disjoint,
    fun y hy => (hci.own y hy).trans (congrArg some hp.symm), hci.ownEnded, ?_, hci.rolled,
    fun y hy e he => Nat.lt_succ_of_lt (hci.past y hy e he), hcur, hlive, hroll, hb,
    hview.trans (le_succ _), hviewEnded, hcmd, fun hst => hfloor (hp ▸ hst)⟩
  rw [hp]
  exact hci.open_iff

theorem inv_phase (hp : p.status = c.phase.status) :
    Inv (s.tick (s.setClient x { c with phase := p })) := by
  have hci := hs.client x c hc
  exact hs.update hc hp hci.current hci.live hci.rolledBack hci.bounds hci.view
    hci.viewEnded hci.command (fun _ _ => rfl) hci.floor
    (fun y d hd hne z hz => hs.resolved x y c d hc hd hne.symm z hz)
    fun y hy => ((hs.pending y hy).foreign x c hc).2

theorem inv_refresh {xmax : ℕ} (hp : c.phase = .running) (hxmax : xmax ≤ s.mgr.nextXid)
    (hclear : c.handle.isolation ≠ .readCommitted ∨ s.Clear xmax) :
    Inv (s.tick { s.setClient x
      { c with
        handle := (s.mgr.refreshSnapshot c.handle xmax).2
        view := if c.handle.isolation = .readCommitted then s.clock else c.view } with
      mgr := (s.mgr.refreshSnapshot c.handle xmax).1 }) := by
  have hci := hs.client x c hc
  dsimp only [refreshSnapshot, Transaction.nextCommand]
  split
  · rename_i hiso
    rw [if_pos hiso]
    have hclear := hclear.resolve_left fun hne => hne hiso
    have hown : ∀ {z}, z ∉ txnXids c.handle →
        z ≠ c.handle.xid ∧ z ∉ (OwnSubxids.fromSubtxn c.handle.subtxnStack).live := by
      refine fun hnot => ⟨fun hzx => hnot (Own.mem (.inl hzx)), fun hzl => hnot ?_⟩
      exact Own.mem (.inr (mem_selfSubxids.1 hzl).1)
    refine hs.update hc rfl ?_ (fun y => mem_live_snapshotSection)
      (fun y => mem_rolledBack_snapshotSection) ⟨?_, ?_⟩ le_rfl (fun e he => ?_)
      snapshotSection_currentCommand (fun y hne => ?_) (fun _ => ?_) (fun y d hd hne z hz => ?_)
      fun y hy => ?_
    · exact snapshotSection_currentXid.trans hci.xid
    · exact snapshotSection_xmin_le_xmax.trans_eq snapshotSection_xmax.symm
    · exact snapshotSection_xmax.trans_le hxmax
    · rw [hs.ended_eq_none hc hp] at he
      cases he
    · exact (lookup_insert_eq _ _ _ _).trans (if_neg (hci.xid.symm ▸ hne))
    · exact (lookup_insert_eq _ _ _ _).trans (if_pos hci.xid.symm)
    · obtain ⟨hzx, hzl⟩ := hown (hs.apart y x d c hd hc hne z hz)
      exact hs.resolved_of_clear hclear hd hz hzx hzl
    · obtain ⟨hyx, hyl⟩ := hown ((hs.pending y hy).foreign x c hc).1
      exact hs.pending_of_clear hclear hy hyx hyl
  all_goals
    rename_i hiso
    rw [if_neg (by rw [hiso]; nofun)]
    exact hs.update hc rfl hci.current (fun y => Snapshot.mem_live_setOwnSubxids)
      (fun y => Snapshot.mem_rolledBack_setOwnSubxids) hci.bounds hci.view hci.viewEnded rfl
      (fun _ _ => rfl) hci.floor (fun y d hd hne z hz => hs.resolved x y c d hc hd hne.symm z hz)
      fun y hy => ((hs.pending y hy).foreign x c hc).2

end

/-! ### Savepoints -/

/-- What SAVEPOINT, RELEASE and ROLLBACK TO do: `fresh` are the XIDs taken and `dead` those rolled
back. -/
structure Grown (m m' : TransactionManager) (t t' : Transaction) (fresh dead : List ℕ) : Prop where
  xid : t'.xid = t.xid
  own : ∀ y, Own t' y ↔ (Own t y ∧ y ∉ dead) ∨ y ∈ fresh
  rolled : ∀ y, y ∈ t'.subtxnStack.rolledBack ↔ y ∈ t.subtxnStack.rolledBack ∨ y ∈ dead
  wasOwn : ∀ y ∈ dead, Own t y ∧ y ≠ t.xid
  next : m'.nextXid = m.nextXid
  clog : ∀ y, m'.clog.lookup y = if y ∈ dead then some .aborted else m.clog.lookup y
  inProgress : ∀ y, y ∈ m'.inProgress ↔ y ∈ m.inProgress ∧ y ∉ dead
  parents : ∀ y p, m'.subxidParent.lookup y = some p →
    m.subxidParent.lookup y = some p ∨ p = t.xid ∧ y ∈ fresh
  floors : m'.snapshotXmins = m.snapshotXmins
  command : t'.currentCommand = t.currentCommand
  increasing : t'.subtxnStack.stack.Pairwise fun a b => b.xid < a.xid
  above : ∀ y, y ∈ t'.subtxnStack.liveStackSubxids ∨ y ∈ t'.subtxnStack.mergedUp → t'.xid < y
  snapshot : t'.snapshot = t.snapshot.setOwnSubxids t'.subtxnStack.selfSubxids
    t'.subtxnStack.rolledBack

theorem Grown.mem_txnXids_iff (h : Grown m m' t t' fresh dead) :
    y ∈ txnXids t' ↔ y ∈ txnXids t ∨ y ∈ fresh := by
  rw [mem_txnXids, mem_txnXids, h.own, h.rolled]
  have := h.wasOwn y
  tauto

/-- The status and the end of the transaction's XIDs after the step. -/
theorem inv_grown {ready : List ℕ} (hs : Inv s) (hc : s.clients.lookup x = some c)
    (hp : c.phase = .running) (hpst : p.status = .inProgress)
    (h : Grown s.mgr m c.handle t fresh dead) (hfresh : ∀ y ∈ fresh, y ∈ s.ready ∧ x < y)
    (hready : ∀ y, y ∈ ready ↔ y ∈ s.ready ∧ y ∉ fresh) :
    Inv (s.tick ({ s.setClient x { c with handle := t, phase := p } with
      mgr := m
      ready := ready }.endXids dead)) := by
  have hci := hs.client x c hc
  have hrun : c.phase.status = .inProgress := by
    rw [hp]
    rfl
  have hnone : s.ended x = none := hci.open_iff.1 hrun
  have hmem : ∀ y, y ∈ txnXids t ↔ y ∈ txnXids c.handle ∨ y ∈ fresh := fun y => h.mem_txnXids_iff
  have hpend : ∀ y ∈ fresh, Pending s y := fun y hy => hs.pending y (.inr (hfresh y hy).1)
  have hdead : ∀ y ∈ dead, y ∈ txnXids c.handle := fun y hy => (h.wasOwn y hy).1.mem
  have hfd : ∀ y ∈ fresh, y ∉ dead := fun y hy hyd =>
    ((hpend y hy).foreign x c hc).1 (hdead y hyd)
  refine hs.change (x := x) (c := { c with handle := t, phase := p })
    ⟨fun y => lookup_setClient s x y _, h.next, fun z hz => ?_, fun z hz => ?_, fun z hzx => ?_,
      fun z hzx => ?_, fun z => ?_, fun z q hq => ?_, fun y _ => by rw [← h.floors]; rfl, rfl, rfl,
      fun z => ?_⟩ ?_ ?_ ?_ ?_
  · rw [xidsOf_eq hc] at hz
    exact (hmem z).2 (.inl hz)
  · rw [xidsOf_eq hc]
    exact ((hmem z).1 hz).imp_right fun hz => (hfresh z hz).1
  · rw [xidsOf_eq hc] at hzx
    exact (h.clog z).trans (if_neg fun hzd => hzx (hdead z hzd))
  · rw [xidsOf_eq hc] at hzx
    exact (h.inProgress z).trans (and_iff_left fun hzd => hzx (hdead z hzd))
  · by_cases hzd : z ∈ dead
    · refine .inr ⟨xidsOf_eq hc ▸ hdead z hzd, ?_, if_pos hzd⟩
      rw [hci.ownEnded z (h.wasOwn z hzd).1, hnone]
    · exact .inl (if_neg hzd)
  · exact (h.parents z q hq).imp_right fun ⟨hq, hz⟩ => ⟨hq.trans hci.xid, (hmem z).2 (.inr hz)⟩
  · refine (hready z).trans (and_congr_right fun hz => not_congr ?_)
    exact ((hmem z).trans (or_iff_right ((hs.pending z (.inr hz)).foreign x c hc).1)).symm
  · -- the own XIDs still run, and those rolled back have just ended
    have hownEnd : ∀ y, Own t y → (if y ∈ dead then some s.clock else s.ended y) = none := by
      intro y hy
      rcases (h.own y).1 hy with ⟨ho, hyd⟩ | hyf
      · rw [if_neg hyd, hci.ownEnded y ho, hnone]
      · rw [if_neg (hfd y hyf), (hpend y hyf).unended]
    have hxid : t.xid = x := h.xid.trans hci.xid
    have hxEnd := hownEnd x (.inl hxid.symm)
    have hownClog : ∀ y, Own t y → m.clog.lookup y = some .inProgress := by
      intro y hy
      rcases (h.own y).1 hy with ⟨ho, hyd⟩ | hyf
      · rw [h.clog, if_neg hyd, hci.own y ho, hrun]
      · rw [h.clog, if_neg (hfd y hyf), (hs.ready y (hfresh y hyf).1).2.1]
    refine ⟨hxid, fun y hy => ?_, fun y hy => ?_, h.increasing, h.above,
      fun y hy ho => ?_,
      fun y hy => ?_, fun y hy => ?_, ?_, fun y hy => ?_, fun y hy e he => ?_, ?_, fun y => ?_,
      fun y => ?_, ?_, hci.view.trans (le_succ _), fun e he => ?_, ?_, fun _ => ?_⟩
    · show 3 ≤ y ∧ y < m.nextXid
      rw [h.next]
      exact ((hmem y).1 hy).elim (hci.range y) fun hyf => (hpend y hyf).range
    · exact ((hmem y).1 hy).elim (hci.least y) fun hyf => (hfresh y hyf).2.le
    · have hyc : y ∈ txnXids c.handle :=
        ((h.rolled y).1 hy).elim (fun hy => mem_txnXids.2 (.inr hy)) (hdead y)
      rcases (h.own y).1 ho with ⟨ho, hyd⟩ | hyf
      · exact hci.disjoint y (((h.rolled y).1 hy).resolve_right hyd) ho
      · exact ((hpend y hyf).foreign x c hc).1 hyc
    · exact (hownClog y hy).trans (congrArg some hpst.symm)
    · exact (hownEnd y hy).trans hxEnd.symm
    · exact ⟨fun _ => hxEnd, fun _ => hpst⟩
    · show m.clog.lookup y = _ ∧ (if y ∈ dead then some s.clock else s.ended y) ≠ none
      rw [h.clog]
      by_cases hyd : y ∈ dead
      · rw [if_pos hyd, if_pos hyd]
        exact ⟨rfl, nofun⟩
      · rw [if_neg hyd, if_neg hyd]
        exact hci.rolled y (((h.rolled y).1 hy).resolve_right hyd)
    · change (if y ∈ dead then some s.clock else s.ended y) = some e at he
      show e < s.clock + 1
      split_ifs at he with hyd
      · exact Nat.lt_succ_of_le (some.inj he).ge
      · rcases (hmem y).1 hy with hy | hyf
        · exact Nat.lt_succ_of_lt (hci.past y hy e he)
        · rw [(hpend y hyf).unended] at he
          cases he
    · rw [h.snapshot]
      exact hci.current
    · rw [h.snapshot]
      exact Snapshot.mem_live_setOwnSubxids
    · rw [h.snapshot]
      exact Snapshot.mem_rolledBack_setOwnSubxids
    · show t.snapshot.xmin ≤ t.snapshot.xmax ∧ t.snapshot.xmax ≤ m.nextXid
      rw [h.snapshot, h.next]
      exact hci.bounds
    · exact absurd (hxEnd.symm.trans he) nofun
    · rw [h.snapshot, h.command]
      exact hci.command
    · show m.snapshotXmins.lookup x = some t.snapshot.xmin
      rw [h.floors, h.snapshot]
      exact hci.floor hrun
  · intro y d hd hne z hz
    rw [h.snapshot]
    exact hs.resolved x y c d hc hd hne.symm z hz
  · intro y hy
    rw [h.snapshot]
    exact ((hs.pending y (hy.imp_right fun hy => ((hready y).1 hy).1)).foreign x c hc).2
  · intro z hz
    show z ∈ m.inProgress ↔ m.clog.lookup z = some .inProgress
    rw [h.inProgress, h.clog]
    rcases (hmem z).1 hz with hz | hzf
    · rw [hs.running x c hc z hz]
      split_ifs with hzd <;> simp [hzd]
    · have hr := hs.ready z (hfresh z hzf).1
      simp [hfd z hzf, hr.2.1, hr.2.2]

theorem endXids_nil (s : State) : s.endXids [] = s := by
  unfold State.endXids
  simp

section Stack

variable (hinc : t.subtxnStack.stack.Pairwise fun a b => b.xid < a.xid)
  (habove : ∀ y, y ∈ t.subtxnStack.liveStackSubxids ∨ y ∈ t.subtxnStack.mergedUp → t.xid < y)

include hinc habove

theorem grown_savepoint {sub : ℕ} (name : String) (hlt : ∀ y ∈ txnXids t, y < sub) :
    Grown m (m.beginSavepointAt t sub name).1 t (m.beginSavepointAt t sub name).2 [sub] [] := by
  refine ⟨rfl, fun y => ?_, fun y => (or_iff_left not_mem_nil).symm, nofun, rfl,
    fun y => (if_neg not_mem_nil).symm, fun y => (and_iff_left not_mem_nil).symm, fun y p hp => ?_,
    rfl, rfl, ?_, fun y hy => ?_, rfl⟩
  · rw [Savepoints.own_savepoint, and_iff_left not_mem_nil, mem_singleton, or_comm]
  · change (m.subxidParent.insert sub t.xid).lookup y = some p at hp
    rw [lookup_insert_eq] at hp
    split_ifs at hp with hyx
    · exact .inr ⟨(some.inj hp).symm, mem_singleton.2 hyx⟩
    · exact .inl hp
  · refine pairwise_cons.2 ⟨fun e he => ?_, hinc⟩
    exact hlt e.xid (Own.mem (.inr (.inl (mem_map.2 ⟨e, he, rfl⟩))))
  · rcases hy with hy | hy
    · rcases mem_cons.1 hy with rfl | hy
      · exact hlt t.xid (Own.mem (.inl rfl))
      · exact habove y (.inl hy)
    · exact habove y (.inr hy)

theorem grown_release {name : String} {sub : ℕ} (h : releaseSavepoint t name = .ok (sub, t')) :
    Grown m m t t' [] [] := by
  obtain ⟨inner, target, outer, hs, -, -, hxid, hst, hrb, hmer⟩ := Savepoints.releaseSavepoint_ok h
  have hsub : t'.subtxnStack.stack.Sublist t.subtxnStack.stack := by
    rw [hst, hs]
    exact List.Sublist.append (List.Sublist.refl _) (sublist_cons_self _ _)
  have hrest : t'.currentCommand = t.currentCommand ∧
      t'.snapshot = t.snapshot.setOwnSubxids t'.subtxnStack.selfSubxids
        t'.subtxnStack.rolledBack := by
    unfold releaseSavepoint at h
    split at h <;> cases h
    exact ⟨rfl, rfl⟩
  refine ⟨hxid, fun y => ?_, fun y => ?_, nofun, rfl, fun y => (if_neg not_mem_nil).symm,
    fun y => (and_iff_left not_mem_nil).symm, fun y p hp => .inl hp, rfl, hrest.1,
    hinc.sublist hsub, fun y hy => ?_, hrest.2⟩
  · rw [Savepoints.own_release h, or_iff_left not_mem_nil]
    exact (and_iff_left not_mem_nil).symm
  · rw [hrb]
    exact (or_iff_left not_mem_nil).symm
  · rw [hxid]
    refine habove y ?_
    rcases hy with hy | hy
    · exact .inl ((hsub.map _).subset hy)
    · rw [hmer, mem_insert_iff] at hy
      refine hy.imp_left ?_
      rintro rfl
      exact mem_map.2 ⟨target, by simp [hs], rfl⟩

theorem grown_rollbackTo {name : String} {sub : ℕ} (hlt : ∀ y ∈ txnXids t, y < sub)
    (hown : ∀ y, Own t y → m.clog.lookup y = some .inProgress)
    (hrolled : ∀ y ∈ t.subtxnStack.rolledBack, m.clog.lookup y = some .aborted)
    (h : m.rollbackToSavepointAt t sub name = .ok (m', t', dead)) :
    Grown m m' t t' [sub] dead := by
  obtain ⟨target, outer, hcut⟩ := Savepoints.cutOff_of_rollbackTo hinc
    (fun e he => habove e.xid (.inl (mem_map.2 ⟨e, he, rfl⟩))) h
  obtain ⟨inner, target', outer', hs, -, -, -, hst', hmer', -, -, -⟩ := rollbackToSavepointAt_ok h
  obtain ⟨hdead, hrb, hin, hpar, hfloor, hcmd, hsnap⟩ := rollbackToSavepointAt_frame h
  have hdown : ∀ y ∈ dead, Own t y := fun y hy => .inr (hdead y hy)
  have hdeadIff : ∀ y, Own t y → (y ∈ dead ↔ target.xid ≤ y) := by
    intro y ho
    have hdis : y ∉ t.subtxnStack.rolledBack := fun hr => by
      cases (hown y ho).symm.trans (hrolled y hr)
    have h₁ := hrb y
    have h₂ := hcut.rolled y
    tauto
  -- of the XIDs rolled back before, none runs
  have hflip : ∀ y, y ∈ t'.subtxnStack.rolledBack ∧ m.clog.lookup y = some .inProgress ↔
      y ∈ dead := by
    intro y
    rw [hrb y]
    constructor
    · rintro ⟨hr | hd, hin⟩
      · rw [hrolled y hr] at hin
        cases hin
      · exact hd
    · exact fun hd => ⟨.inr hd, hown y (hdown y hd)⟩
  refine ⟨hcut.xid, fun y => ?_, hrb, fun y hy => ⟨hdown y hy, (habove y (hdead y hy)).ne'⟩,
    hcut.nextXid, fun y => ?_, fun y => ?_, fun y p hp => ?_, hfloor, hcmd, ?_, fun y hy => ?_,
    hsnap⟩
  · rw [hcut.own, mem_singleton, or_comm, and_congr_right fun ho => ?_]
    rw [hdeadIff y ho, not_le]
  · rw [hcut.clog]
    exact if_congr (hflip y) rfl rfl
  · rw [hin, hflip y]
  · rw [hpar, lookup_insert_eq] at hp
    split_ifs at hp with hyx
    · exact .inr ⟨(some.inj hp).symm, mem_singleton.2 hyx⟩
    · exact .inl hp
  · rw [hst']
    rw [hs] at hinc
    have houter := (pairwise_append.1 hinc).2.1
    refine pairwise_cons.2 ⟨fun e he => ?_, (pairwise_cons.1 houter).2⟩
    refine hlt e.xid (Own.mem (.inr (.inl (mem_map.2 ⟨e, ?_, rfl⟩))))
    rw [hs]
    exact mem_append_right _ (mem_cons_of_mem _ he)
  · rw [hcut.xid]
    rcases hy with hy | hy
    · rw [liveStackSubxids, hst', map_cons] at hy
      rcases mem_cons.1 hy with rfl | hy
      · exact hlt t.xid (Own.mem (.inl rfl))
      · refine habove y (.inl ?_)
        rw [liveStackSubxids, hs, map_append, map_cons]
        exact mem_append_right _ (mem_cons_of_mem _ hy)
    · rw [hmer'] at hy
      exact habove y (.inr (mem_filter.1 hy).1)

end Stack

/-! ### Begin and end -/

theorem own_iff_mem_family : Own t y ↔ y = t.xid ∨ y ∈ t.committedSubxidFamily := by
  rw [Own, Transaction.mem_committedSubxidFamily, or_comm (a := y ∈ t.subtxnStack.mergedUp)]

theorem inv_begin {iso : IsolationLevel} {xmax : ℕ} (hs : Inv s) (hx : x ∈ s.ready)
    (hxmax : xmax ≤ s.mgr.nextXid) (hclear : s.Clear xmax) :
    Inv (s.tick { s.setClient x { handle := (s.mgr.beginAt x iso xmax).2, view := s.clock } with
      mgr := (s.mgr.beginAt x iso xmax).1
      ready := s.ready.filter (· ≠ x) }) := by
  have hp := hs.pending x (.inr hx)
  obtain ⟨hloose, hclog, hin⟩ := hs.ready x hx
  have hnone : s.xidsOf x = [] := by
    rw [State.xidsOf]
    split
    · rename_i c hc
      exact absurd (hs.client x c hc).self_mem (hp.foreign x c hc).1
    · rfl
  have hxids : ∀ z, z ∈ txnXids (s.mgr.beginAt x iso xmax).2 ↔ z = x := by
    intro z
    rw [mem_txnXids, Own]
    simp [beginAt, new, liveStackSubxids]
  refine hs.change (x := x) (c := { handle := (s.mgr.beginAt x iso xmax).2, view := s.clock })
    ⟨fun y => lookup_setClient s _ y _, rfl, fun z hz => ?_, fun z hz => .inr ?_, fun _ _ => rfl,
      fun _ _ => .rfl, fun z => .inl rfl, fun z q hq => .inl hq, fun y hne => ?_, rfl, rfl,
      fun z => ?_⟩ ?_ ?_ ?_ ?_
  · rw [hnone] at hz
    cases hz
  · rwa [(hxids z).1 hz]
  · exact (lookup_insert_eq _ _ _ _).trans (if_neg hne)
  · rw [hxids]
    show z ∈ s.ready.filter (· ≠ x) ↔ _
    simp
  · have hown : ∀ y, Own (s.mgr.beginAt x iso xmax).2 y → y = x := fun y hy =>
      (hxids y).1 hy.mem
    refine ⟨rfl, fun y hy => (hxids y).1 hy ▸ hp.range, fun y hy => ((hxids y).1 hy).ge,
      List.Pairwise.nil, fun y hy => ?_, forall_mem_nil _, fun y hy => ?_, fun y hy => ?_,
      ⟨fun _ => hp.unended, fun _ => rfl⟩, forall_mem_nil _, fun y hy e he => ?_, ?_,
      fun y => ?_, fun y => ?_, ⟨?_, ?_⟩, le_succ _, fun e he => ?_,
      snapshotSection_currentCommand, fun _ => ?_⟩
    · rcases hy with hy | hy <;> cases hy
    · rw [hown y hy]
      exact hclog
    · rw [hown y hy]
    · obtain rfl := (hxids y).1 hy
      cases hp.unended.symm.trans he
    · exact snapshotSection_currentXid
    · exact mem_live_snapshotSection
    · exact mem_rolledBack_snapshotSection
    · exact snapshotSection_xmin_le_xmax.trans_eq snapshotSection_xmax.symm
    · exact snapshotSection_xmax.trans_le hxmax
    · cases hp.unended.symm.trans he
    · exact (lookup_insert_eq _ _ _ _).trans (if_pos rfl)
  · intro y d hd hne z hz
    refine hs.resolved_of_clear hclear hd hz (fun hzx => ?_) not_mem_nil
    exact (hp.foreign y d hd).1 (hzx ▸ hz)
  · refine fun y hy => hs.pending_of_clear hclear (hy.imp_right fun hy => (mem_filter.1 hy).1) ?_
      not_mem_nil
    rintro rfl
    exact hy.elim hloose fun hy => by simpa using (mem_filter.1 hy).2
  · intro z hz
    obtain rfl := (hxids z).1 hz
    exact iff_of_true hin hclog

/-- What the end of a transaction does. -/
structure Closed (m m' : TransactionManager) (t : Transaction) (st : XidStatus) : Prop where
  next : m'.nextXid = m.nextXid
  clog : ∀ y, (∀ z, Own t z → m.clog.lookup z = some .inProgress) →
    m'.clog.lookup y = if y = t.xid ∨ y ∈ t.committedSubxidFamily then some st else m.clog.lookup y
  inProgress : ∀ y, y ∈ m'.inProgress ↔ y ∈ m.inProgress ∧ ¬ Own t y
  parents : ∀ y p, m'.subxidParent.lookup y = some p → m.subxidParent.lookup y = some p
  floors : ∀ y ≠ t.xid, m'.snapshotXmins.lookup y = m.snapshotXmins.lookup y

theorem closed_terminate
    (h : m.terminateWithSubxids t.xid t.committedSubxidFamily st false = .ok m') :
    Closed m (m'.forgetSubxidParents t.committedSubxidFamily) t st := by
  obtain ⟨-, hclog, hin, hnext, hfloor, hpar⟩ := terminate_ok h
  refine ⟨hnext, fun y hrun => ?_, fun y => ?_, fun y p hp => ?_, fun y hy => ?_⟩
  · refine (hclog y).trans ?_
    by_cases hyx : y = t.xid
    · simp [hyx]
    · by_cases hyf : y ∈ t.committedSubxidFamily
      · rw [if_neg hyx, if_pos hyf, if_pos (.inr hyf), hrun y (own_iff_mem_family.2 (.inr hyf))]
        rfl
      · simp [hyx, hyf]
  · rw [own_iff_mem_family, not_or]
    exact hin y
  · rw [lookup_forgetSubxidParents, hpar] at hp
    split_ifs at hp
    exact hp
  · show m'.snapshotXmins.lookup y = _
    rw [hfloor, lookup_erase_eq, if_neg hy]

theorem closed_commit (h : m.commitFinalizeVisible t t.committedSubxidFamily = .ok m') :
    Closed m m' t .committed := by
  unfold commitFinalizeVisible at h
  split at h
  · cases h
  · rename_i m₁ h₁
    cases h
    exact closed_terminate h₁

theorem closed_abort (h : m.abort t = .ok m') : Closed m m' t .aborted := by
  unfold TransactionManager.abort at h
  split at h
  · cases h
  · rename_i m₁ h₁
    cases h
    exact closed_terminate h₁

theorem inv_closed (hs : Inv s) (hc : s.clients.lookup x = some c)
    (hrun : c.phase.status = .inProgress)
    (hp : p.status ≠ .inProgress) (h : Closed s.mgr m c.handle p.status) :
    Inv (s.tick ({ s.setClient x { c with phase := p } with mgr := m }.endXids
      (x :: c.handle.committedSubxidFamily))) := by
  have hci := hs.client x c hc
  have hnone : s.ended x = none := hci.open_iff.1 hrun
  have hfam : ∀ y, y ∈ x :: c.handle.committedSubxidFamily ↔ Own c.handle y := fun y => by
    rw [mem_cons, own_iff_mem_family, hci.xid]
  have hownRun : ∀ y, Own c.handle y → s.mgr.clog.lookup y = some .inProgress := fun y hy => by
    rw [hci.own y hy, hrun]
  have hclogOwn : ∀ y, Own c.handle y → m.clog.lookup y = some p.status := fun y hy =>
    (h.clog y hownRun).trans (if_pos (own_iff_mem_family.1 hy))
  have hclogNot : ∀ y, ¬ Own c.handle y → m.clog.lookup y = s.mgr.clog.lookup y := fun y hy =>
    (h.clog y hownRun).trans (if_neg fun hf => hy (own_iff_mem_family.2 hf))
  have hxo : Own c.handle x := .inl hci.xid.symm
  have hmem : ∀ z, Own c.handle z → z ∈ s.xidsOf x := fun z ho => xidsOf_eq hc ▸ ho.mem
  refine hs.change (x := x) (c := { c with phase := p })
    ⟨fun y => lookup_setClient s x y _, h.next, fun z hz => xidsOf_eq hc ▸ hz,
      fun z hz => .inl ((xidsOf_eq hc).symm ▸ hz), fun z hzx => hclogNot z (mt (hmem z) hzx),
      fun z hzx => (h.inProgress z).trans (and_iff_left (mt (hmem z) hzx)),
      fun z => ?_, fun z q hq => .inl (h.parents z q hq),
      fun y hne => h.floors y (hci.xid.symm ▸ hne), rfl, rfl, fun z => ?_⟩ ?_ ?_
    (fun y hy => ((hs.pending y hy).foreign x c hc).2) ?_
  · by_cases ho : Own c.handle z
    · exact .inr ⟨hmem z ho, (hci.ownEnded z ho).trans hnone, if_pos ((hfam z).2 ho)⟩
    · exact .inl (if_neg fun hz => ho ((hfam z).1 hz))
  · exact (and_iff_left_of_imp fun hz => ((hs.pending z (.inr hz)).foreign x c hc).1).symm
  · have hend : ∀ y, Own c.handle y →
        (if y ∈ x :: c.handle.committedSubxidFamily then some s.clock else s.ended y) =
          some s.clock := fun y hy => if_pos ((hfam y).2 hy)
    have hendNot : ∀ y ∈ c.handle.subtxnStack.rolledBack,
        (if y ∈ x :: c.handle.committedSubxidFamily then some s.clock else s.ended y) =
          s.ended y := fun y hy => if_neg fun hf => hci.disjoint y hy ((hfam y).1 hf)
    refine ⟨hci.xid, fun y hy => ?_, hci.least, hci.increasing, hci.above, hci.disjoint, hclogOwn,
      fun y hy => (hend y hy).trans (hend x hxo).symm, ?_, fun y hy => ⟨?_, ?_⟩,
      fun y hy e he => ?_, hci.current, hci.live, hci.rolledBack, ?_, hci.view.trans (le_succ _),
      fun e he => ?_, hci.command, fun hst => absurd hst hp⟩
    · show 3 ≤ y ∧ y < m.nextXid
      rw [h.next]
      exact hci.range y hy
    · exact iff_of_false hp fun he => absurd ((hend x hxo).symm.trans he) nofun
    · exact (hclogNot y (hci.disjoint y hy)).trans (hci.rolled y hy).1
    · exact fun he => (hci.rolled y hy).2 ((hendNot y hy).symm.trans he)
    · change (if y ∈ x :: c.handle.committedSubxidFamily then some s.clock else s.ended y) = _ at he
      show e < s.clock + 1
      split_ifs at he
      · exact Nat.lt_succ_of_le (some.inj he).ge
      · exact Nat.lt_succ_of_lt (hci.past y hy e he)
    · show _ ∧ _ ≤ m.nextXid
      rw [h.next]
      exact hci.bounds
    · rw [← mem_unique (hend x hxo) he]
      exact hci.view
  · exact fun y d hd hne z hz => hs.resolved x y c d hc hd hne.symm z hz
  · intro z hz
    show z ∈ m.inProgress ↔ m.clog.lookup z = some .inProgress
    rw [h.inProgress]
    by_cases ho : Own c.handle z
    · simp [hclogOwn z ho, ho, hp]
    · rw [hclogNot z ho, hs.running x c hc z hz]
      simp [ho]

/-! ## All steps -/

/-- What a step does before the clock moves on, with the operations of the manager summed up in
`Grown` and `Closed`. -/
inductive Effect (s : State) : Act → State → Prop
  | allocate : Effect s .allocate
    { s with mgr := s.mgr.allocXid, loose := s.mgr.nextXid :: s.loose }
  | publish {x : ℕ} (hx : x ∈ s.loose) : Effect s (.publish x)
    { s with
      mgr := (s.mgr.clogInsert x).publish x
      loose := s.loose.filter (· ≠ x)
      ready := x :: s.ready }
  | begin {x xmax : ℕ} (iso : IsolationLevel) (hx : x ∈ s.ready) (hlt : x < xmax)
    (hxmax : xmax ≤ s.mgr.nextXid) : Effect s (.begin x iso xmax)
    { s.setClient x { handle := (s.mgr.beginAt x iso xmax).2, view := s.clock } with
      mgr := (s.mgr.beginAt x iso xmax).1
      ready := s.ready.filter (· ≠ x) }
  | refresh {x xmax : ℕ} {c : Client} (hc : s.clients.lookup x = some c) (hp : c.phase = .running)
    (hlt : x < xmax) (hxmax : xmax ≤ s.mgr.nextXid) : Effect s (.refresh x xmax)
      { s.setClient x
        { c with
          handle := (s.mgr.refreshSnapshot c.handle xmax).2
          view := if c.handle.isolation = .readCommitted then s.clock else c.view } with
        mgr := (s.mgr.refreshSnapshot c.handle xmax).1 }
  | savepoint {a : Act} {x : ℕ} {c : Client} {m : TransactionManager} {t : Transaction}
    {fresh ready : List ℕ}
    (ha : (∃ sub name, a = .savepoint x sub name) ∨ ∃ name, a = .release x name)
    (hc : s.clients.lookup x = some c) (hp : c.phase = .running)
    (h : Grown s.mgr m c.handle t fresh []) (hfresh : ∀ y ∈ fresh, y ∈ s.ready ∧ x < y)
    (hready : ∀ y, y ∈ ready ↔ y ∈ s.ready ∧ y ∉ fresh) :
    Effect s a { s.setClient x { c with handle := t } with mgr := m, ready := ready }
  | rollbackTo {x sub : ℕ} {name : String} {c : Client} {m : TransactionManager} {t : Transaction}
    {dead : List ℕ} (hc : s.clients.lookup x = some c) (hp : c.phase = .running)
    (h : Grown s.mgr m c.handle t [sub] dead) (hsub : sub ∈ s.ready ∧ x < sub) :
    Effect s (.rollbackTo x sub name)
      ({ s.setClient x { c with handle := t, phase := .undoing (visits dead) } with
        mgr := m
        ready := s.ready.filter (· ≠ sub) }.endXids dead)
  | rollback {x : ℕ} {c : Client} (hc : s.clients.lookup x = some c) (hp : c.phase = .running) :
    Effect s (.rollback x) (s.setClient x
      { c with phase := .aborting (visits c.handle.abortWriteXidFamily.reverse) })
  | close {a : Act} {x : ℕ} {c : Client} {m : TransactionManager} {p : Phase}
    (ha : a = .commit x ∧ c.phase = .running ∧ p = .committed ∨
      a = .abort x ∧ c.phase = .aborting [] ∧ p = .aborted)
    (hc : s.clients.lookup x = some c) (h : Closed s.mgr m c.handle p.status) :
    Effect s a ({ s.setClient x { c with phase := p } with mgr := m }.endXids
      (x :: c.handle.committedSubxidFamily))

theorem takesXid_iff {sub : ℕ} :
    s.takesXid t sub = true ↔ sub ∈ s.ready ∧ ∀ y ∈ txnXids t, y < sub := by
  simp [State.takesXid]

theorem Inv.effect_cases (hs : Inv s) {a : Act} {s₁ : State} (h : effect s a = some s₁) :
    Effect s a s₁ := by
  cases a with
  | allocate =>
    cases h
    exact .allocate
  | publish x =>
    simp only [Timeline.effect] at h
    split_ifs at h with hx
    cases h
    exact .publish hx
  | begin x iso xmax =>
    simp only [Timeline.effect] at h
    split_ifs at h with hx
    cases h
    exact .begin iso hx.1 hx.2.1 hx.2.2
  | refresh x xmax =>
    obtain ⟨c, hc, hp, heq⟩ := whenRunning_eq_some h
    by_cases hx : x < xmax ∧ xmax ≤ s.mgr.nextXid
    · rw [if_pos hx] at heq
      cases heq
      exact .refresh hc hp hx.1 hx.2
    · rw [if_neg hx] at heq
      cases heq
  | savepoint x sub name =>
    obtain ⟨c, hc, hp, heq⟩ := whenRunning_eq_some h
    have hci := hs.client x c hc
    split_ifs at heq with hsub
    rw [takesXid_iff] at hsub
    cases heq
    refine .savepoint (.inl ⟨sub, name, rfl⟩) hc hp
      (grown_savepoint hci.increasing hci.above name hsub.2)
      (forall_mem_singleton.2 ⟨hsub.1, hsub.2 x hci.self_mem⟩) fun y => ?_
    simp
  | release x name =>
    obtain ⟨c, hc, hp, heq⟩ := whenRunning_eq_some h
    have hci := hs.client x c hc
    split at heq <;> cases heq
    rename_i sub t hrel
    exact .savepoint (.inr ⟨name, rfl⟩) hc hp (grown_release hci.increasing hci.above hrel)
      (forall_mem_nil _) fun y => (and_iff_left not_mem_nil).symm
  | rollbackTo x sub name =>
    obtain ⟨c, hc, hp, heq⟩ := whenRunning_eq_some h
    have hci := hs.client x c hc
    split_ifs at heq with hsub
    rw [takesXid_iff] at hsub
    split at heq <;> cases heq
    rename_i m t dead hrb
    refine .rollbackTo hc hp (grown_rollbackTo hci.increasing hci.above hsub.2 (fun y hy => ?_)
      (fun y hy => (hci.rolled y hy).1) hrb) ⟨hsub.1, hsub.2 x hci.self_mem⟩
    rw [hci.own y hy, hp]
    rfl
  | commit x =>
    obtain ⟨c, hc, hp, heq⟩ := whenRunning_eq_some h
    split at heq <;> cases heq
    rename_i m hm
    exact .close (.inl ⟨rfl, hp, rfl⟩) hc (closed_commit hm)
  | rollback x =>
    obtain ⟨c, hc, hp, heq⟩ := whenRunning_eq_some h
    cases heq
    exact .rollback hc hp
  | abort x =>
    simp only [Timeline.effect] at h
    split at h
    · rename_i c hc
      split_ifs at h with hp
      split at h <;> cases h
      rename_i m hm
      exact .close (.inr ⟨rfl, hp, rfl⟩) hc (closed_abort hm)
    · cases h

theorem Inv.step_cases (hs : Inv s) {a : Act} (h : step s a = some s') :
    ∃ s₁, Effect s a s₁ ∧ s' = s.tick s₁ := by
  obtain ⟨s₁, h₁, rfl⟩ := map_eq_some_iff.1 h
  exact ⟨s₁, hs.effect_cases h₁, rfl⟩

theorem timely_refresh {xmax : ℕ} (hc : s.clients.lookup x = some c)
    (ht : Timely s (.refresh x xmax) = true) :
    (c.handle.isolation ≠ .readCommitted ∨ s.Clear xmax) ∧
      c.handle.currentCommand < 2 ^ 32 - 1 := by
  simpa only [Timely, hc, decide_eq_true_eq] using ht

theorem Inv.step (hs : Inv s) {a : Act} (ht : Timely s a = true) (h : step s a = some s') :
    Inv s' := by
  obtain ⟨s₁, h₁, rfl⟩ := hs.step_cases h
  cases h₁ with
  | allocate => exact inv_allocate hs
  | publish hx => exact inv_publish hs hx
  | begin iso hx _ hxmax => exact inv_begin hs hx hxmax (of_decide_eq_true ht)
  | refresh hc hp _ hxmax => exact inv_refresh hs hc hp hxmax (timely_refresh hc ht).1
  | @savepoint _ x c m t _ _ _ hc hp hg hfresh hready =>
    have := inv_grown hs hc hp (p := c.phase) (by rw [hp]; rfl) hg hfresh hready
    rwa [endXids_nil] at this
  | rollbackTo hc hp hg hsub =>
    exact inv_grown hs hc hp rfl hg (forall_mem_singleton.2 hsub) (by simp)
  | rollback hc hp => exact inv_phase hs hc (by rw [hp]; rfl)
  | close ha hc hclosed =>
    refine inv_closed hs hc ?_ ?_ hclosed
    · rcases ha with ⟨-, hp, -⟩ | ⟨-, hp, -⟩ <;> rw [hp] <;> rfl
    · rcases ha with ⟨-, -, rfl⟩ | ⟨-, -, rfl⟩ <;> nofun

/-- The visit `v` is next, and `p` is the phase after it. -/
def Visits (c : Client) (v : ℕ × Visit) (todo : List (ℕ × Visit)) (p : Phase) : Prop :=
  (c.phase = .undoing (v :: todo) ∧ p = if todo.isEmpty then .running else .undoing todo) ∨
    c.phase = .aborting (v :: todo) ∧ p = .aborting todo

section

variable {v : ℕ × Visit} {todo : List (ℕ × Visit)} {p : Phase} (hp : Visits c v todo p)
include hp

theorem Visits.isOpen : c.phase.status = .inProgress := by
  rcases hp with ⟨hp, -⟩ | ⟨hp, -⟩ <;> rw [hp] <;> rfl

theorem Visits.status : p.status = c.phase.status := by
  rw [hp.isOpen]
  rcases hp with ⟨-, rfl⟩ | ⟨-, rfl⟩
  · split_ifs <;> rfl
  · rfl

end

section

variable {v : ℕ × Visit} (h : s.nextVisit x = some (v, s'))
include h

/-- What one visit of the undo of writes does to the transactions. -/
theorem nextVisit_eq_some :
    ∃ c p todo, s.clients.lookup x = some c ∧ s' = s.setClient x { c with phase := p } ∧
      Visits c v todo p := by
  unfold State.nextVisit at h
  split at h
  · rename_i c hc
    split at h
    · rename_i w todo hp
      cases h
      exact ⟨c, _, todo, hc, rfl, .inl ⟨hp, rfl⟩⟩
    · rename_i w todo hp
      cases h
      exact ⟨c, _, todo, hc, rfl, .inr ⟨hp, rfl⟩⟩
    · cases h
  · cases h

theorem Inv.nextVisit (hs : Inv s) : Inv (s.tick s') := by
  obtain ⟨c, p, todo, hc, rfl, hp⟩ := nextVisit_eq_some h
  exact inv_phase hs hc hp.status

/-- A visit is of no concern to a transaction that runs. -/
theorem lookup_of_visit (hd : s.clients.lookup y = some d) (hp : d.phase = .running) :
    (s.tick s').clients.lookup y = some d := by
  obtain ⟨c, p, todo, hc, rfl, hphase⟩ := nextVisit_eq_some h
  refine (lookup_setClient s x y _).trans ((if_neg (ne_of_phase hc hd ?_)).trans hd)
  rcases hphase with ⟨h, -⟩ | ⟨h, -⟩ <;> rw [h, hp] <;> nofun

end

/-! ## What snapshots see -/

/-- **Of another transaction, a snapshot sees what committed before its view.** -/
theorem Inv.committedBefore_iff (hs : Inv s) (hc : s.clients.lookup x = some c)
    (hd : s.clients.lookup y = some d) (hxy : x ≠ y) (hz : z ∈ txnXids d.handle) :
    isCommittedBeforeSnapshot z c.handle.snapshot s.mgr.status = true ↔
      Own d.handle z ∧ d.phase = .committed ∧ ∃ e, s.ended y = some e ∧ e < c.view := by
  have hdi := hs.client y d hd
  rw [isCommittedBeforeSnapshot_iff, hs.resolved x y c d hc hd hxy z hz]
  rcases mem_txnXids.1 hz with ho | hr
  · rw [hs.status_own hd ho, Phase.isCommitted_status, hdi.ownEnded z ho]
    tauto
  · have hno : ¬ Own d.handle z := hdi.disjoint z hr
    rw [hs.status_rolled hd hr]
    simp [XidStatus.isCommitted, hno]

end UltraSql.Timeline
