import UltraSql.Heap.PageInv
import UltraSql.Lib.Hops

/-!
# Tables of row versions

A table whose rows are updated by new versions. An UPDATE appends a version, stamps the old one with
its XID and links it to the new one through `ctid`. A DELETE stamps. A transaction that rolls back
takes its stamps out, tuple by tuple.

A writer holds the lock of the row until its transaction ends, and looks at the row again once it
has the lock: under READ COMMITTED through a snapshot of that moment, otherwise through its own. It
acts if it sees the version and nobody has stamped it. `TableStep` says what the operations do, for
whoever maintains an index on the table.

**Theorem (`TableInv.step`).** Every step keeps the invariant of a table.

**Theorem (`HeaderInv.isVisible_eq`).** A reader gets a version if it sees who inserted it and does
not see who stamped it.

**Theorem (`TableInv.link`).** A version is linked to a later one, made by the transaction and the
command that stamped it.
-/

namespace UltraSql

open List TransactionManager Timeline Option Function

namespace TupleHeader

/-- The old version of an UPDATE: `stamp_updated_old`, and the same in `try_hot_update`. -/
def stampUpdated (h : TupleHeader) (hot : Bool) (xid command : ℕ) (new : TupleId) : TupleHeader :=
  let h := h.markDeleted xid command
  { h with
    ctid := new
    infomask :=
      if hot then { h.infomask with hotUpdated := true } else { h.infomask with updated := true } }

/-- The new version of an UPDATE. -/
def freshVersion (hot : Bool) (xid command : ℕ) (tid : TupleId) : TupleHeader :=
  { fresh xid command tid with
    infomask := if hot then { updated := true, hotUpdated := true } else {} }

/-- `updated_ctid_target` -/
def updatedCtidTarget (h : TupleHeader) (current : TupleId) : Option TupleId :=
  if h.ctid = current then none
  else if h.infomask.updated || h.infomask.hotUpdated then some h.ctid
  else none

/-- Who inserted the tuple. -/
def ins (h : TupleHeader) : Heap.Stamp := ⟨h.xmin, h.xmin, h.cmin⟩

/-- Who deleted it or put another version in its place. -/
def del (h : TupleHeader) : Heap.Stamp := ⟨h.xmax, h.xmax, h.cmax⟩

end TupleHeader

namespace Index

open Heap
open Savepoints (Own mem_txnXids own_writeXid)

structure Tuple (ρ : Type) where
  header : TupleHeader
  row : ρ
  deriving DecidableEq

/-- The slots of the relation's pages, numbered through. -/
def tidOf (n : ℕ) : TupleId := ⟨0, 0, n⟩

variable {ρ : Type}

/-! ## The operations -/

/-- The snapshot through which a writer looks at a row again. Under READ COMMITTED it is a new one.
With an `xmax` loaded earlier the writer finds fewer rows to act on. -/
def latest (t : Timeline.State) (c : Client) : Snapshot :=
  match c.handle.isolation with
  | .readCommitted =>
    t.mgr.buildSnapshot c.handle.xid c.handle.currentCommand (.fromSubtxn c.handle.subtxnStack)
  | .repeatableRead | .serializable => c.handle.snapshot

/-- A writer that has the lock of a version may act on it. -/
def writable (t : Timeline.State) (c : Client) (h : TupleHeader) : Bool :=
  decide (h.xmax = 0) && decide (isVisible h (latest t c) t.mgr.status = .visible)

/-- `HeapAccess::insert` -/
def insertTuple (ts : List (Tuple ρ)) (xid command : ℕ) (row : ρ) : List (Tuple ρ) :=
  ts ++ [⟨.fresh xid command (tidOf ts.length), row⟩]

/-- The tuple after an UPDATE that has put the version `new` in its place. -/
def Tuple.superseded (v : Tuple ρ) (hot : Bool) (xid command new : ℕ) : Tuple ρ :=
  { v with header := v.header.stampUpdated hot xid command (tidOf new) }

/-- `HeapAccess::update`, with the new version on the page of the old one or elsewhere. -/
def updateTuple (ts : List (Tuple ρ)) (n : ℕ) (old : Tuple ρ) (hot : Bool) (xid command : ℕ)
    (row : ρ) : List (Tuple ρ) :=
  ts.set n (old.superseded hot xid command ts.length) ++
    [⟨.freshVersion hot xid command (tidOf ts.length), row⟩]

/-- `HeapAccess::delete` -/
def deleteTuple (ts : List (Tuple ρ)) (n : ℕ) (old : Tuple ρ) (xid command : ℕ) : List (Tuple ρ) :=
  ts.set n { old with header := old.header.markDeleted xid command }

/-- `rollback_delete_stamps` at one tuple. -/
def clearTuple (ts : List (Tuple ρ)) (n : ℕ) (old : Tuple ρ) : List (Tuple ρ) :=
  ts.set n { old with header := old.header.clearDelete (tidOf n) }

/-- The client `x` if it is between statements. -/
def running (t : Timeline.State) (x : ℕ) : Option Client :=
  (t.clients.lookup x).filter (·.phase = .running)

/-- The XID whose stamps the transaction `x` takes out next. -/
def clearing (t : Timeline.State) (x : ℕ) : Option ℕ :=
  match t.clients.lookup x with
  | some c =>
    match c.phase with
    | .aborting ((z, .stamps) :: _) => some z
    | _ => none
  | none => none

/-- The version to which a version is linked. -/
def Tuple.next (v : Tuple ρ) (n : ℕ) : Option ℕ :=
  (v.header.updatedCtidTarget (tidOf n)).map (·.slot)

/-- **What a step can do** to the transactions and to the tuples of a table. -/
inductive TableStep (t : Timeline.State) (ts : List (Tuple ρ)) :
    Timeline.State → List (Tuple ρ) → Prop
  | keep : TableStep t ts t ts
  | time {b : Timeline.Act} {t' : Timeline.State} (hb : b.plain = true) (ht : Timely t b = true)
    (h : step t b = some t') : TableStep t ts t' ts
  | insert {x : ℕ} {c : Client} (hc : t.clients.lookup x = some c) (hp : c.phase = .running)
    (row : ρ) :
    TableStep t ts t (insertTuple ts c.handle.writeXid c.handle.currentCommand row)
  | update {x n : ℕ} {c : Client} {v : Tuple ρ} (hc : t.clients.lookup x = some c)
    (hp : c.phase = .running) (hv : ts[n]? = some v) (hw : writable t c v.header = true)
    (hot : Bool) (row : ρ) :
    TableStep t ts t (updateTuple ts n v hot c.handle.writeXid c.handle.currentCommand row)
  | delete {x n : ℕ} {c : Client} {v : Tuple ρ} (hc : t.clients.lookup x = some c)
    (hp : c.phase = .running) (hv : ts[n]? = some v) (hw : writable t c v.header = true) :
    TableStep t ts t (deleteTuple ts n v c.handle.writeXid c.handle.currentCommand)
  | clear {x n z : ℕ} {c : Client} {v : Tuple ρ} {todo : List (ℕ × Visit)}
    (hc : t.clients.lookup x = some c) (hp : c.phase = .aborting ((z, .stamps) :: todo))
    (hv : ts[n]? = some v) (hx : v.header.xmax = z) : TableStep t ts t (clearTuple ts n v)
  | visit {x : ℕ} {u : ℕ × Visit} {t' : Timeline.State} (h : t.nextVisit x = some (u, t')) :
    TableStep t ts (t.tick t') ts

variable {t t' : Timeline.State} {ts ts' : List (Tuple ρ)} {a b : Stamp} {x y z k n m : ℕ}
  {c d : Client} {h : TupleHeader} {v w : Tuple ρ}

theorem running_eq_some :
    running t x = some c ↔ t.clients.lookup x = some c ∧ c.phase = .running := by
  simp [running, filter_eq_some_iff]

theorem clearing_eq_some (h : clearing t x = some z) :
    ∃ c todo, t.clients.lookup x = some c ∧ c.phase = .aborting ((z, .stamps) :: todo) := by
  unfold clearing at h
  split at h
  · rename_i c hc
    split at h <;> cases h
    rename_i y todo hp
    exact ⟨c, todo, hc, hp⟩
  · cases h

/-! ## Who writes over whom -/

/-- The stamp `a` is over the stamp `b`: both are of one transaction and in this order, or the
transaction of `b` has committed, before that of `a` and before every snapshot through which that
transaction looks from the next command on. -/
inductive Over (t : Timeline.State) (a b : Stamp) : Prop
  | own (ho : a.owner = b.owner) (hk : b.command ≤ a.command)
  | seen (d : Client) (e : ℕ) (hd : t.clients.lookup b.owner = some d) (hp : d.phase = .committed)
    (he : t.ended b.owner = some e)
    (hview : ∀ c, t.clients.lookup a.owner = some c →
      c.handle.isolation ≠ .readCommitted ∨ a.command < c.handle.currentCommand → e < c.view)
    (hend : ∀ e', t.ended a.owner = some e' → e < e')

/-- What a step without savepoints does to the transactions. -/
structure Ages (t t' : Timeline.State) : Prop where
  evolves : Evolves t t'
  refreshed : ∀ y d d', t.clients.lookup y = some d → t'.clients.lookup y = some d' →
    Refreshed t.clock d d'
  ended : ∀ y e, t'.ended y = some e → t.ended y = some e ∨ e = t.clock

theorem Ages.refl (t : Timeline.State) : Ages t t :=
  ⟨.refl t,
    fun y d d' hd hd' => by
      obtain rfl := mem_unique hd hd'
      exact .refl _ d,
    fun _ _ h => .inl h⟩

theorem ages_step (hi : Timeline.Inv t) {b : Timeline.Act} (hb : b.plain = true)
    (ht : Timely t b = true) (h : step t b = some t') : Ages t t' :=
  ⟨evolves_step hi ht h, fun _ _ _ hd hd' => refreshed hi hb h hd hd',
    fun _ _ he => ended_or_now hi hb h he⟩

theorem ages_visit {u : ℕ × Visit} (h : t.nextVisit x = some (u, t')) : Ages t (t.tick t') := by
  obtain ⟨c, p, todo, hc, rfl, hp⟩ := nextVisit_eq_some h
  refine ⟨visit_evolves hc hp, fun y d d' hd hd' => ?_, fun _ _ he => .inl he⟩
  exact rel_setClient hc hd hd' (.refl _ d) fun _ => ⟨rfl, .inl rfl, fun _ => rfl⟩

theorem Over.mono (hab : Over t a b) (ha : Held t a) (hi : Timeline.Inv t) (hg : Ages t t') :
    Over t' a b := by
  cases hab with
  | own ho hk => exact .own ho hk
  | seen d e hd hp he hview hend =>
    obtain ⟨d', hd', hm⟩ := hg.evolves.moves _ d hd
    have hpast : e < t.clock := hi.ended_lt hd he
    refine .seen d' e hd' (hm.committed hp).1 (hg.evolves.ended _ e he) (fun c' hc' hcond => ?_)
      fun e' he' => ?_
    · obtain ⟨c, hc, -⟩ := ha
      obtain ⟨c₁, hc₁, hmc⟩ := hg.evolves.moves _ c hc
      obtain rfl := mem_unique hc₁ hc'
      obtain ⟨hiso, hnew, -⟩ := hg.refreshed _ c c₁ hc hc'
      rw [hiso] at hcond
      by_cases hold : c.handle.isolation ≠ .readCommitted ∨ a.command < c.handle.currentCommand
      · exact (hview c hc hold).trans_le hmc.view
      · obtain ⟨hrc, hcmd⟩ := not_or.1 hold
        have hlt := hcond.resolve_left hrc
        rw [hnew.resolve_left fun heq => hcmd (heq ▸ hlt)]
        · exact hpast
        · exact not_not.1 hrc
    · rcases hg.ended _ e' he' with hold | rfl
      · exact hend e' hold
      · exact hpast

/-- **Who sees a stamp sees what it is over.** -/
theorem Over.sees (hab : Over t a b) (hi : Timeline.Inv t) (hs : Solo t) (ha : Held t a)
    (hb : Held t b) (hc : t.clients.lookup x = some c) (hp : c.phase = .running)
    (hk : k ≤ c.handle.currentCommand) (hseen : sees t x k a = true) : sees t x k b = true := by
  obtain ⟨da, hda, -⟩ := id ha
  obtain ⟨db, hdb, -⟩ := id hb
  cases hab with
  | own ho hcmd =>
    by_cases hx : a.owner = x
    · have hx' : b.owner = x := ho ▸ hx
      exact (sees_own hc hx').2
        ⟨hb.own hs hi (hx' ▸ hc), hcmd.trans_lt ((sees_own hc hx).1 hseen).2⟩
    · obtain ⟨hcom, -, e, he, hlt⟩ := (sees_foreign hc hda hx).1 hseen
      rw [ho] at hda he hx
      exact (sees_foreign hc hda hx).2 ⟨hcom, hb.own hs hi hda, e, he, hlt⟩
  | seen d e hd hcom he hview hend =>
    have hne : b.owner ≠ x := ne_of_phase hc hd (by simp [hp, hcom])
    refine (sees_foreign hc hd hne).2 ⟨hcom, hb.own hs hi hd, e, he, ?_⟩
    by_cases hx : a.owner = x
    · have hlt := ((sees_own hc hx).1 hseen).2
      exact hview c (hx ▸ hc) (.inr (hlt.trans_le hk))
    · obtain ⟨-, -, ea, hea, hlt⟩ := (sees_foreign hc hda hx).1 hseen
      exact (hend ea hea).trans hlt

/-- Over a stamp of a transaction that has not committed there are only its own. -/
theorem Over.owner_eq (hab : Over t a b) (hd : t.clients.lookup b.owner = some d)
    (hp : d.phase ≠ .committed) : a.owner = b.owner := by
  cases hab with
  | own ho => exact ho
  | seen d' e hd' hcom =>
    obtain rfl := mem_unique hd hd'
    exact absurd hcom hp

/-! ## Writers -/

theorem xmax_of_writable (hw : writable t c h = true) : h.xmax = 0 :=
  of_decide_eq_true ((Bool.and_eq_true _ _).mp hw).1

/-- The transaction rolls back or has done so. -/
def Undone (t : Timeline.State) (z : ℕ) : Prop := ∃ d, t.clients.lookup z = some d ∧ Failed d

theorem Undone.mono (h : Undone t z) (hg : Ages t t') : Undone t' z := by
  obtain ⟨d, hd, hf⟩ := h
  obtain ⟨d', hd', hm⟩ := hg.evolves.moves z d hd
  exact ⟨d', hd', hm.failed hf⟩

section

variable (hi : Timeline.Inv t) (hs : Solo t) (hc : t.clients.lookup x = some c)
include hi hs hc

omit hi in
theorem writeXid_eq : c.handle.writeXid = x :=
  hs x c hc _ own_writeXid.mem

/-- The snapshot of a writer has nothing but its own XID as its own. -/
theorem latest_own (hz : (latest t c).isCurrentXid z = true) : z = x := by
  refine hs x c hc z (Own.mem ?_)
  unfold latest at hz
  split at hz
  · rw [buildSnapshot, Snapshot.isCurrentXid_iff,
      snapshotSection_currentXid,
      mem_live_snapshotSection] at hz
    rcases hz with rfl | hz
    · exact .inl rfl
    · exact .inr (SubtxnManager.mem_selfSubxids.1 hz).1
  all_goals exact (own_xid_iff hi hc).1.1 hz

omit hs in
theorem latest_command : (latest t c).currentCommand = c.handle.currentCommand := by
  unfold latest
  split
  · exact snapshotSection_currentCommand
  all_goals exact (hi.client x c hc).command

section

variable (hp : c.phase = .running) (hins : Inserted t h h.ins) (hw : writable t c h = true)
include hp hins hw

/-- The version is one that the writer's transaction made earlier, or one that is committed. -/
theorem over_of_writable :
    h.xmax = 0 ∧ (h.xmin = x → h.cmin < c.handle.currentCommand) ∧
      Over t ⟨x, x, c.handle.currentCommand⟩ h.ins := by
  have hv := of_decide_eq_true ((Bool.and_eq_true _ _).mp hw).2
  refine ⟨xmax_of_writable hw, ?_⟩
  have hseen : (isVisible h (latest t c) t.mgr.status).isSeen = true := by
    rw [hv]
    rfl
  rcases committedBefore_of_seen hseen with hf | hcur | hbefore
  · rw [hins.frozen] at hf
    cases hf
  · have hlt : h.cmin < c.handle.currentCommand := by
      by_contra hlt
      rw [isVisible, hins.frozen, hcur, isVisibleOwn, latest_command hi hc,
        if_pos (not_lt.1 hlt)] at hv
      simp only [Bool.false_eq_true, if_false, if_true, ite_self] at hv
      cases hv
    exact ⟨fun _ => hlt, .own (latest_own hi hs hc hcur).symm hlt.le⟩
  · obtain ⟨d, hd, hz, -⟩ := id hins.held
    have hst := (isCommittedBeforeSnapshot_iff.1 hbefore).2
    rw [show h.xmin = h.ins.xid from rfl, hi.status_own hd (hins.held.own hs hi hd)] at hst
    have hcom : d.phase = .committed := Timeline.Phase.isCommitted_status.1 hst
    have hne : h.xmin ≠ x := ne_of_phase hc hd (by simp [hp, hcom])
    obtain ⟨e, he⟩ : ∃ e, t.ended h.xmin = some e := hi.exists_ended hd hcom
    refine ⟨fun ho => absurd ho hne, .seen d e hd hcom he (fun c' hc' hcond => ?_) fun e' he' => ?_⟩
    · obtain rfl := mem_unique hc hc'
      have hiso := hcond.resolve_right (lt_irrefl _)
      have hlatest : latest t c = c.handle.snapshot := by
        unfold latest
        split
        · rename_i hrc
          exact absurd hrc hiso
        all_goals rfl
      rw [hlatest] at hbefore
      obtain ⟨-, -, e', he', hlt⟩ := (hi.committedBefore_iff hc hd (Ne.symm hne) hz).1 hbefore
      obtain rfl := mem_unique he he'
      exact hlt
    · rw [hi.ended_eq_none hc hp] at he'
      cases he'

/-- A version that a writer may act on counts. -/
theorem not_undone_of_writable : ¬ Undone t h.xmin := by
  rintro ⟨d, hd, hf⟩
  obtain ⟨-, -, hover⟩ := over_of_writable hi hs hc hp hins hw
  cases hover with
  | own ho =>
    obtain rfl : h.xmin = x := ho.symm
    obtain rfl := mem_unique hc hd
    exact hf.ne_running hp
  | seen d' e hd' hcom =>
    obtain rfl := mem_unique hd hd'
    exact hf.ne_committed hcom

end

end

/-! ## The invariant -/

/-- What holds of the header of a version. -/
structure HeaderInv (t : Timeline.State) (h : TupleHeader) : Prop where
  inserted : Inserted t h h.ins
  inPlace : h.infomask.updatedInPlace = false
  history : h.infomask.inplaceHistory = false
  held : h.xmax ≠ 0 → Held t h.del
  isOver : h.xmax ≠ 0 → Over t h.del h.ins

/-- The version `n` is linked to the version `m`. -/
def Link (ts : List (Tuple ρ)) (n m : ℕ) : Prop := ∃ v, ts[n]? = some v ∧ v.next n = some m

structure TableInv (t : Timeline.State) (ts : List (Tuple ρ)) : Prop where
  txn : Timeline.Inv t
  solo : Solo t
  condemned : Condemned t
  header : ∀ (n : ℕ) v, ts[n]? = some v → HeaderInv t v.header
  link : ∀ (n m : ℕ), Link ts n m → n < m ∧ ∃ v w, ts[n]? = some v ∧ ts[m]? = some w ∧
    v.header.xmax ≠ 0 ∧ w.header.ins = v.header.del
  unlinked : ∀ (n : ℕ) v, ts[n]? = some v → v.header.xmax = 0 → v.header.ctid = tidOf n

theorem tableInv_init : TableInv {} ([] : List (Tuple ρ)) :=
  ⟨inv_init, solo_init, nofun, nofun, fun n m ⟨v, hv, _⟩ => (by cases hv), nofun⟩

theorem HeaderInv.mono (hh : HeaderInv t h) (hi : Timeline.Inv t) (hg : Ages t t') :
    HeaderInv t' h where
  inserted := ⟨hh.inserted.held.mono hg.evolves, rfl, rfl, hh.inserted.frozen⟩
  inPlace := hh.inPlace
  history := hh.history
  held hx := (hh.held hx).mono hg.evolves
  isOver hx := (hh.isOver hx).mono (hh.held hx) hi hg

/-- **What a reader gets.** -/
theorem HeaderInv.isVisible_eq (hh : HeaderInv t h) (hi : Timeline.Inv t) (hs : Solo t)
    (hc : t.clients.lookup x = some c) (hp : c.phase = .running) :
    isVisible h (snapshotAt c k) t.mgr.status =
      if sees t x k h.ins = true then
        if h.xmax ≠ 0 ∧ sees t x k h.del = true then
          if h.xmin = x then .deletedByOwn else .invisible
        else .visible
      else .invisible := by
  have hout : h.visibleOutcome = .visible := by
    rw [TupleHeader.visibleOutcome, hh.history]
    rfl
  by_cases hseen : sees t x k h.ins = true
  · rw [if_pos hseen]
    by_cases hx : h.xmax = 0
    · rw [hh.inserted.isVisible_unstamped hi hc hseen hh.inPlace hx, hout, ite_self,
        if_neg fun h => h.1 hx]
    · have hown : h.ins.owner = x → h.del.owner = x := by
        rintro rfl
        exact (hh.isOver hx).owner_eq hc (by simp [hp])
      have hknown : KnownXid t x c k h.del :=
        (hh.held hx).knownXid hi hc fun ho => (hh.held hx).own hs hi (ho ▸ hc)
      rw [hh.inserted.isVisible_deleted hi hc hseen hh.inPlace (hh.held hx) hknown hown rfl rfl,
        hout, ite_self]
      simp only [ne_eq, hx, not_false_eq_true, true_and]
      rfl
  · rw [if_neg hseen, hh.inserted.isVisible_eq hi hc, if_neg hseen]

/-! ## What a writer may act on -/

section

variable (hi : Timeline.Inv t)

include hi

section

variable (hs : Solo t) (hc : t.clients.lookup x = some c)
include hs hc

/-- No XID of the writer is rolled back. -/
theorem latest_rolledBack : (latest t c).ownSubxidRolledBack z = false := by
  have hnil : ∀ y, y ∉ c.handle.subtxnStack.rolledBack := by
    intro y hy
    have hx := hs x c hc y (mem_txnXids.2 (.inr hy))
    exact (hi.client x c hc).disjoint y hy (.inl (hx.trans (hi.client x c hc).xid.symm))
  rw [← Bool.not_eq_true, Snapshot.ownSubxidRolledBack_iff]
  unfold latest
  split
  · rw [buildSnapshot, mem_rolledBack_snapshotSection]
    exact hnil z
  all_goals
    rw [(hi.client x c hc).rolledBack]
    exact hnil z

omit hs in
theorem latest_self : (latest t c).isCurrentXid x = true := by
  rw [Snapshot.isCurrentXid_iff]
  left
  unfold latest
  split
  · rw [buildSnapshot, snapshotSection_currentXid]
    exact (hi.client x c hc).xid.symm
  all_goals exact (hi.client x c hc).current.symm

/-- What of another transaction a writer finds committed. -/
theorem latest_committedBefore (hd : t.clients.lookup z = some d) (hne : z ≠ x) :
    isCommittedBeforeSnapshot z (latest t c) t.mgr.status = true ↔ d.phase = .committed ∧
      (c.handle.isolation ≠ .readCommitted → ∃ e, t.ended z = some e ∧ e < c.view) := by
  have hown : Own d.handle z := .inl (hi.client z d hd).xid.symm
  have hz := hown.mem
  unfold latest
  split
  · rename_i hrc
    have hlive : z ∉ (OwnSubxids.fromSubtxn c.handle.subtxnStack).live := fun hl =>
      hne (hs x c hc z (Own.mem (.inr (SubtxnManager.mem_selfSubxids.1 hl).1)))
    have hxid : z ≠ c.handle.xid := fun heq => hne (heq.trans (hi.client x c hc).xid)
    rw [isCommittedBeforeSnapshot_iff, buildSnapshot, snapshotSection_resolved hxid hlive,
      and_iff_right ((hi.client z d hd).range z hz).2, hi.running z d hd z hz,
      (hi.client z d hd).own z hown, hi.status_own hd hown]
    cases hph : d.phase <;> simp [Timeline.Phase.status, XidStatus.isCommitted, hrc]
  all_goals
    rename_i hiso
    rw [hi.committedBefore_iff hc hd hne.symm hz]
    simp [hown, hiso]

/-- **When a writer may act on a version**: nobody has stamped it, and it is one that the writer has
made earlier or a committed one, under REPEATABLE READ and SERIALIZABLE one that is older than the
snapshot. -/
theorem writable_iff (hh : HeaderInv t h) :
    writable t c h = true ↔ h.xmax = 0 ∧ (h.xmin = x ∧ h.cmin < c.handle.currentCommand ∨
      h.xmin ≠ x ∧ ∃ d, t.clients.lookup h.xmin = some d ∧ d.phase = .committed ∧
        (c.handle.isolation ≠ .readCommitted → ∃ e, t.ended h.xmin = some e ∧ e < c.view)) := by
  unfold writable
  rw [Bool.and_eq_true, decide_eq_true_iff, decide_eq_true_iff]
  refine and_congr_right fun hx => ?_
  have hne : h.xmin ≠ 0 := hh.inserted.held.ne_zero hi
  have h0 : Xid.isInvalid h.xmin = false := by simp [Xid.isInvalid, hne]
  have hx0 : Xid.isInvalid h.xmax = true := by simp [Xid.isInvalid, hx]
  have hcur : (latest t c).isCurrentXid h.xmax = false := by
    rw [← Bool.not_eq_true]
    intro hcur
    rw [hx] at hcur
    exact hi.ne_zero hc (latest_own hi hs hc hcur).symm
  have hunfold : isVisible h (latest t c) t.mgr.status = .visible ↔
      if (latest t c).isCurrentXid h.xmin = true then h.cmin < c.handle.currentCommand
      else isCommittedBeforeSnapshot h.xmin (latest t c) t.mgr.status = true := by
    unfold isVisible isVisibleOwn isVisibleForeign
    simp only [hh.inserted.frozen, latest_rolledBack hi hs hc, h0, hx0, hcur, hh.inPlace,
      latest_command hi hc, TupleHeader.visibleOutcome, hh.history]
    split_ifs <;> simp_all
  rw [hunfold]
  obtain ⟨d, hd⟩ : ∃ d, t.clients.lookup h.xmin = some d :=
    hh.inserted.held.imp fun _ hd => hd.1
  by_cases hxx : h.xmin = x
  · rw [if_pos (hxx ▸ latest_self hi hc)]
    simp [hxx]
  · rw [if_neg fun hcur => hxx (latest_own hi hs hc hcur), latest_committedBefore hi hs hc hd hxx]
    constructor
    · exact fun h => .inr ⟨hxx, d, hd, h⟩
    · rintro (⟨h, -⟩ | ⟨-, d', hd', h⟩)
      · exact absurd h hxx
      · obtain rfl := mem_unique hd hd'
        exact h

end

/-- What a writer may act on stays so while the writer is at its statement, unless it is stamped. -/
theorem writable_mono (hs : Solo t) (hi' : Timeline.Inv t') (hs' : Solo t') (hg : Ages t t')
    (hc : t.clients.lookup x = some c) (hc' : t'.clients.lookup x = some c) (hh : HeaderInv t h)
    (hw : writable t c h = true) : writable t' c h = true := by
  obtain ⟨hx, hcase⟩ := (writable_iff hi hs hc hh).1 hw
  refine (writable_iff hi' hs' hc' (hh.mono hi hg)).2 ⟨hx, hcase.imp_right ?_⟩
  rintro ⟨hne, d, hd, hcom, hend⟩
  obtain ⟨d', hd', hm⟩ := hg.evolves.moves _ d hd
  exact ⟨hne, d', hd', (hm.committed hcom).1, fun hiso => (hend hiso).imp fun e he =>
    ⟨hg.evolves.ended _ e he.1, he.2⟩⟩

end

/-! ## Tuples and links after an operation -/

theorem getElem?_append_singleton (h : (ts ++ [w])[n]? = some v) :
    ts[n]? = some v ∨ n = ts.length ∧ v = w := by
  rw [getElem?_append, getElem?_singleton] at h
  split_ifs at h
  · exact .inl h
  · cases h
    exact .inr ⟨by omega, rfl⟩

theorem getElem?_set_cases (h : (ts.set m w)[n]? = some v) :
    n = m ∧ v = w ∨ n ≠ m ∧ ts[n]? = some v := by
  rw [getElem?_set] at h
  split_ifs at h with hmn
  · cases h
    exact .inl ⟨hmn.symm, rfl⟩
  · exact .inr ⟨Ne.symm hmn, h⟩

theorem lt_length (hv : ts[n]? = some v) : n < ts.length := (List.getElem?_eq_some_iff.1 hv).1

variable {command xid i : ℕ} {hot : Bool} {row : ρ}

/-- The new version of an UPDATE is the last tuple. -/
theorem getElem?_updateTuple_length :
    (updateTuple ts n v hot xid command row)[ts.length]? =
      some ⟨.freshVersion hot xid command (tidOf ts.length), row⟩ := by
  rw [updateTuple, getElem?_append_right length_set.le, length_set, Nat.sub_self]
  rfl

theorem getElem?_updateTuple_self (hv : ts[n]? = some v) :
    (updateTuple ts n v hot xid command row)[n]? =
      some (v.superseded hot xid command ts.length) := by
  have hlt := lt_length hv
  rw [updateTuple, getElem?_append_left (by rwa [length_set]), getElem?_set_self hlt]

theorem link_append (hnew : w.next ts.length = none) : Link (ts ++ [w]) i m ↔ Link ts i m := by
  constructor
  · rintro ⟨v, hv, hm⟩
    rcases getElem?_append_singleton hv with hv | ⟨rfl, rfl⟩
    · exact ⟨v, hv, hm⟩
    · rw [hnew] at hm
      cases hm
  · rintro ⟨v, hv, hm⟩
    exact ⟨v, (getElem?_append_left (lt_length hv)).trans hv, hm⟩

theorem link_set (hv : ts[n]? = some v) :
    Link (ts.set n w) i m ↔ i = n ∧ w.next n = some m ∨ i ≠ n ∧ Link ts i m := by
  constructor
  · rintro ⟨u, hu, hm⟩
    rcases getElem?_set_cases hu with ⟨rfl, rfl⟩ | ⟨hne, hu⟩
    · exact .inl ⟨rfl, hm⟩
    · exact .inr ⟨hne, u, hu, hm⟩
  · rintro (⟨rfl, hm⟩ | ⟨hne, u, hu, hm⟩)
    · exact ⟨w, getElem?_set_self (lt_length hv), hm⟩
    · exact ⟨u, (getElem?_set_ne (Ne.symm hne)).trans hu, hm⟩

theorem tidOf_inj (h : tidOf n = tidOf m) : n = m := congrArg TupleId.slot h

theorem next_of_ctid (h : v.header.ctid = tidOf n) : v.next n = none := by
  rw [Tuple.next, TupleHeader.updatedCtidTarget, if_pos h]
  rfl

theorem next_superseded (hne : m ≠ n) : (v.superseded hot xid command m).next n = some m := by
  have hctid : (v.superseded hot xid command m).header.ctid ≠ tidOf n :=
    fun h => hne (tidOf_inj h)
  rw [Tuple.next, TupleHeader.updatedCtidTarget, if_neg hctid]
  cases hot <;> simp [Tuple.superseded, TupleHeader.stampUpdated, tidOf]

section Links

variable (hi : TableInv t ts) (hv : ts[n]? = some v)

variable {command i xid : ℕ} {row : ρ}

theorem link_insertTuple : Link (insertTuple ts xid command row) i m ↔ Link ts i m :=
  link_append (next_of_ctid rfl)

include hi hv

theorem link_updateTuple {hot : Bool} (hx : v.header.xmax = 0) :
    Link (updateTuple ts n v hot xid command row) i m ↔
      Link ts i m ∨ i = n ∧ m = ts.length := by
  have hlt := lt_length hv
  have hold : ∀ m, ¬ Link ts n m := by
    rintro m ⟨u, hu, hm⟩
    obtain rfl := mem_unique hv hu
    rw [next_of_ctid (hi.unlinked n v hv hx)] at hm
    cases hm
  rw [updateTuple, link_append, link_set hv, next_superseded (by omega), some.injEq,
    eq_comm (a := ts.length)]
  · constructor
    · rintro (h | ⟨-, h⟩)
      · exact .inr h
      · exact .inl h
    · rintro (h | h)
      · exact .inr ⟨fun hin => hold m (hin ▸ h), h⟩
      · exact .inl h
  · refine next_of_ctid ?_
    rw [length_set]
    rfl

theorem link_deleteTuple (hx : v.header.xmax = 0) :
    Link (deleteTuple ts n v xid command) i m ↔ Link ts i m := by
  have hself := hi.unlinked n v hv hx
  have hnone : Tuple.next { v with header := v.header.markDeleted xid command } n = none :=
    next_of_ctid hself
  rw [deleteTuple, link_set hv, hnone]
  constructor
  · rintro (⟨-, h⟩ | ⟨-, h⟩)
    · cases h
    · exact h
  · intro h
    refine .inr ⟨?_, h⟩
    rintro rfl
    obtain ⟨u, hu, hm⟩ := h
    obtain rfl := mem_unique hv hu
    rw [next_of_ctid hself] at hm
    cases hm

omit hi in
theorem link_clearTuple : Link (clearTuple ts n v) i m ↔ i ≠ n ∧ Link ts i m := by
  rw [clearTuple, link_set hv, next_of_ctid rfl]
  simp

end Links

/-! ## Every step keeps the invariant -/

section

variable (hs : Solo t) (hc : t.clients.lookup x = some c)
include hs hc

theorem held_writer : Held t ⟨x, x, c.handle.currentCommand⟩ :=
  ⟨c, hc, writeXid_eq hs hc ▸ own_writeXid.mem, le_rfl⟩

/-- A header that names a new inserter and nobody else. -/
theorem headerInv_new (hins : h.ins = ⟨x, x, c.handle.currentCommand⟩) (hx : h.xmax = 0)
    (hmask : h.infomask.frozen = false ∧ h.infomask.updatedInPlace = false ∧
      h.infomask.inplaceHistory = false) : HeaderInv t h :=
  ⟨⟨hins ▸ held_writer hs hc, rfl, rfl, hmask.1⟩, hmask.2.1, hmask.2.2, fun h => absurd hx h,
    fun h => absurd hx h⟩

theorem HeaderInv.stamped {h' : TupleHeader} (hh : HeaderInv t h) (hins : h'.ins = h.ins)
    (hdel : h'.del = ⟨x, x, c.handle.currentCommand⟩)
    (hmask : h'.infomask.frozen = h.infomask.frozen ∧ h'.infomask.updatedInPlace = false ∧
      h'.infomask.inplaceHistory = false) (hover : Over t ⟨x, x, c.handle.currentCommand⟩ h.ins) :
    HeaderInv t h' where
  inserted := ⟨hins ▸ hh.inserted.held, rfl, rfl, hmask.1.trans hh.inserted.frozen⟩
  inPlace := hmask.2.1
  history := hmask.2.2
  held _ := hdel ▸ held_writer hs hc
  isOver _ := by
    rw [hdel, hins]
    exact hover

end

theorem HeaderInv.cleared (hh : HeaderInv t h) (tid : TupleId) : HeaderInv t (h.clearDelete tid) :=
  ⟨⟨hh.inserted.held, rfl, rfl, hh.inserted.frozen⟩, rfl, hh.history, fun h => absurd rfl h,
    fun h => absurd rfl h⟩

theorem markDeleted_infomask (h' : h.infomask.updatedInPlace = false) :
    (h.markDeleted xid command).infomask = h.infomask := by
  rw [TupleHeader.markDeleted, if_neg (by rw [h']; nofun)]

theorem stampUpdated_infomask {tid : TupleId} (h' : h.infomask.updatedInPlace = false) :
    (h.stampUpdated hot xid command tid).infomask =
      if hot then { h.infomask with hotUpdated := true }
      else { h.infomask with updated := true } := by
  rw [TupleHeader.stampUpdated, markDeleted_infomask h']

/-- **A version stays**, with its row and its inserter, and so does a stamp on it unless its
transaction rolls back. -/
structure Kept (t : Timeline.State) (v v' : Tuple ρ) : Prop where
  row : v'.row = v.row
  ins : v'.header.ins = v.header.ins
  stamp : v.header.xmax ≠ 0 → v'.header = v.header ∨
    v'.header.xmax = 0 ∧ ∃ d todo, t.clients.lookup v.header.xmax = some d ∧
      d.phase = .aborting todo

theorem Kept.refl (t : Timeline.State) (v : Tuple ρ) : Kept t v v := ⟨rfl, rfl, fun _ => .inl rfl⟩

section

variable (hi : TableInv t ts)
include hi

/-- The XID of a visit is the transaction's own. -/
theorem TableInv.visit_xid (hc : t.clients.lookup x = some c) {u : Visit} {todo : List (ℕ × Visit)}
    (hp : c.phase = .aborting ((z, u) :: todo)) : z = x :=
  hi.solo x c hc z (hi.condemned x c z u hc (by rw [hp]; exact mem_cons_self)).1

variable (hst : TableStep t ts t' ts')
include hst

theorem TableInv.ages : Ages t t' := by
  cases hst with
  | time hb ht h => exact ages_step hi.txn hb ht h
  | visit h => exact ages_visit h
  | _ => exact .refl t

theorem TableInv.txn_step : Timeline.Inv t' ∧ Solo t' ∧ Condemned t' := by
  cases hst with
  | time hb ht h =>
    exact ⟨hi.txn.step ht h, solo_step hi.txn hi.solo hb h,
      condemned_step hi.txn ht h hi.condemned⟩
  | visit h =>
    refine ⟨hi.txn.nextVisit h, ?_⟩
    obtain ⟨c, p, todo, hc, rfl, hp⟩ := nextVisit_eq_some h
    exact ⟨hi.solo.setClient (hi.solo _ c hc), condemned_visit hc hp hi.condemned⟩
  | _ => exact ⟨hi.txn, hi.solo, hi.condemned⟩

theorem TableInv.header_step (hv : ts'[n]? = some v) : HeaderInv t' v.header := by
  cases hst with
  | keep => exact hi.header n v hv
  | time hb ht h => exact (hi.header n v hv).mono hi.txn (ages_step hi.txn hb ht h)
  | visit h => exact (hi.header n v hv).mono hi.txn (ages_visit h)
  | insert hc hp row =>
    rcases getElem?_append_singleton hv with hv | ⟨rfl, rfl⟩
    · exact hi.header n v hv
    · refine headerInv_new hi.solo hc ?_ rfl ⟨rfl, rfl, rfl⟩
      rw [writeXid_eq hi.solo hc]
      rfl
  | @update x m c u hc hp hu hw hot row =>
    rcases getElem?_append_singleton hv with hv | ⟨rfl, rfl⟩
    · rcases getElem?_set_cases hv with ⟨rfl, rfl⟩ | ⟨-, hv⟩
      · have hh := hi.header n u hu
        obtain ⟨-, -, hover⟩ := over_of_writable hi.txn hi.solo hc hp hh.inserted hw
        refine hh.stamped hi.solo hc rfl ?_ ?_ hover
        · rw [writeXid_eq hi.solo hc]
          rfl
        · rw [Tuple.superseded, stampUpdated_infomask hh.inPlace]
          cases hot <;> exact ⟨rfl, hh.inPlace, hh.history⟩
      · exact hi.header n v hv
    · refine headerInv_new hi.solo hc ?_ rfl ?_
      · rw [writeXid_eq hi.solo hc]
        rfl
      · cases hot <;> exact ⟨rfl, rfl, rfl⟩
  | @delete x m c u hc hp hu hw =>
    rcases getElem?_set_cases hv with ⟨rfl, rfl⟩ | ⟨-, hv⟩
    · have hh := hi.header n u hu
      obtain ⟨-, -, hover⟩ := over_of_writable hi.txn hi.solo hc hp hh.inserted hw
      refine hh.stamped hi.solo hc rfl ?_ ?_ hover
      · rw [writeXid_eq hi.solo hc]
        rfl
      · rw [markDeleted_infomask hh.inPlace]
        exact ⟨rfl, hh.inPlace, hh.history⟩
    · exact hi.header n v hv
  | @clear x m z c u todo hc hp hu hx =>
    rcases getElem?_set_cases hv with ⟨rfl, rfl⟩ | ⟨-, hv⟩
    · exact (hi.header n u hu).cleared _
    · exact hi.header n v hv

theorem TableInv.kept (hv : ts[n]? = some v) : ∃ v', ts'[n]? = some v' ∧ Kept t v v' := by
  have hlt := lt_length hv
  have hset : ∀ {m u} u', ts[m]? = some u → Kept t u u' →
      ∃ v', (ts.set m u')[n]? = some v' ∧ Kept t v v' := by
    intro m u u' hu hk
    by_cases hnm : n = m
    · subst hnm
      obtain rfl := mem_unique hv hu
      exact ⟨u', getElem?_set_self hlt, hk⟩
    · exact ⟨v, (getElem?_set_ne (Ne.symm hnm)).trans hv, .refl t v⟩
  cases hst with
  | keep | time | visit => exact ⟨v, hv, .refl t v⟩
  | insert => exact ⟨v, (getElem?_append_left hlt).trans hv, .refl t v⟩
  | @update x m c u hc hp hu hw hot row =>
    have hx := xmax_of_writable hw
    obtain ⟨v', hv', hk⟩ := hset (u.superseded hot c.handle.writeXid c.handle.currentCommand
      ts.length) hu ⟨rfl, rfl, fun h => absurd hx h⟩
    exact ⟨v', (getElem?_append_left (by rw [length_set]; exact hlt)).trans hv', hk⟩
  | @delete x m c u hc hp hu hw =>
    have hx := xmax_of_writable hw
    exact hset _ hu ⟨rfl, rfl, fun h => absurd hx h⟩
  | @clear x m z c u todo hc hp hu hx =>
    refine hset _ hu ⟨rfl, rfl, fun _ => .inr ⟨rfl, c, _, ?_, hp⟩⟩
    rw [hx, hi.visit_xid hc hp]
    exact hc

theorem TableInv.unlinked_step (hv : ts'[n]? = some v)
    (hx : v.header.xmax = 0) : v.header.ctid = tidOf n := by
  have hzero : ∀ {x c}, t.clients.lookup x = some c → c.handle.writeXid ≠ 0 := fun hc =>
    writeXid_eq hi.solo hc ▸ hi.txn.ne_zero hc
  cases hst with
  | keep | time | visit => exact hi.unlinked n v hv hx
  | insert hc =>
    rcases getElem?_append_singleton hv with hv | ⟨rfl, rfl⟩
    · exact hi.unlinked n v hv hx
    · rfl
  | update hc =>
    rcases getElem?_append_singleton hv with hv | ⟨rfl, rfl⟩
    · rcases getElem?_set_cases hv with ⟨rfl, rfl⟩ | ⟨-, hv⟩
      · exact absurd hx (hzero hc)
      · exact hi.unlinked n v hv hx
    · rw [length_set]
      rfl
  | delete hc =>
    rcases getElem?_set_cases hv with ⟨rfl, rfl⟩ | ⟨-, hv⟩
    · exact absurd hx (hzero hc)
    · exact hi.unlinked n v hv hx
  | clear =>
    rcases getElem?_set_cases hv with ⟨rfl, rfl⟩ | ⟨-, hv⟩
    · rfl
    · exact hi.unlinked n v hv hx

/-- **Where a link comes from**: it was there, or the step is an UPDATE that makes it. -/
theorem TableInv.link_cases (hl : Link ts' n m) :
    Link ts n m ∨ ∃ x c v w, t.clients.lookup x = some c ∧ c.phase = .running ∧
      ts[n]? = some v ∧ writable t c v.header = true ∧ m = ts.length ∧ ts'[m]? = some w ∧
      w.header.ins = ⟨x, x, c.handle.currentCommand⟩ ∧ w.header.xmax = 0 ∧
      ∃ v', ts'[n]? = some v' ∧ v'.header.del = ⟨x, x, c.handle.currentCommand⟩ ∧
        v'.header.xmax ≠ 0 := by
  cases hst with
  | keep | time | visit => exact .inl hl
  | insert => exact .inl (link_insertTuple.1 hl)
  | @update x i c u hc hp hu hw hot row =>
    have hx := xmax_of_writable hw
    rcases (link_updateTuple hi hu hx).1 hl with hl | ⟨rfl, rfl⟩
    · exact .inl hl
    · have hwx := writeXid_eq hi.solo hc
      refine .inr ⟨x, c, u, _, hc, hp, hu, hw, rfl, getElem?_updateTuple_length, ?_, rfl, _,
        getElem?_updateTuple_self hu, ?_, ?_⟩
      · rw [← hwx]
        rfl
      · rw [← hwx]
        rfl
      · show c.handle.writeXid ≠ 0
        rw [hwx]
        exact hi.txn.ne_zero hc
  | @delete x i c u hc hp hu hw =>
    have hx := xmax_of_writable hw
    exact .inl ((link_deleteTuple hi hu hx).1 hl)
  | clear hc hp hu hx => exact .inl ((link_clearTuple hu).1 hl).2

theorem TableInv.step : TableInv t' ts' := by
  obtain ⟨htxn, hsolo, hcond⟩ := hi.txn_step hst
  refine ⟨htxn, hsolo, hcond, fun n v hv => hi.header_step hst hv, fun n m hl => ?_,
    fun n v hv hx => hi.unlinked_step hst hv hx⟩
  rcases hi.link_cases hst hl with hold |
    ⟨x, c, v, w, -, -, hv, -, rfl, hw, hins, -, v', hv', hdel, hx⟩
  · obtain ⟨hlt, v, w, hv, hw, hx, hins⟩ := hi.link n m hold
    obtain ⟨v', hv', hkv⟩ := hi.kept hst hv
    obtain ⟨w', hw', hkw⟩ := hi.kept hst hw
    refine ⟨hlt, v', w', hv', hw', ?_⟩
    rcases hkv.stamp hx with heq | ⟨hx', -⟩
    · rw [heq, hkw.ins]
      exact ⟨hx, hins⟩
    · -- a version without a stamp has no link
      obtain ⟨u, hu, hnext⟩ := hl
      obtain rfl := mem_unique hv' hu
      rw [next_of_ctid (hi.unlinked_step hst hv' hx')] at hnext
      cases hnext
  · exact ⟨lt_length hv, v', w, hv', hw, hx, hins.trans hdel.symm⟩

end

/-! ## Chains of versions -/

/-- The version to which the version `n` is linked. -/
def nextOf (ts : List (Tuple ρ)) (n : ℕ) : Option ℕ := ts[n]?.bind (·.next n)

theorem nextOf_eq_some : nextOf ts n = some m ↔ Link ts n m := bind_eq_some_iff

theorem nextOf_congr (h : ∀ n m, Link ts' n m ↔ Link ts n m) : nextOf ts' = nextOf ts :=
  funext fun n => ext fun m => (nextOf_eq_some.trans (h n m)).trans nextOf_eq_some.symm

theorem nextOf_insertTuple : nextOf (insertTuple ts xid command row) = nextOf ts :=
  nextOf_congr fun _ _ => link_insertTuple

theorem nextOf_length (ts : List (Tuple ρ)) : nextOf ts ts.length = none := by
  rw [nextOf, getElem?_eq_none le_rfl]
  rfl

section

variable (hi : TableInv t ts) (hv : ts[n]? = some v) (hx : v.header.xmax = 0)
include hi hv hx

theorem nextOf_deleteTuple : nextOf (deleteTuple ts n v xid command) = nextOf ts :=
  nextOf_congr fun _ _ => link_deleteTuple hi hv hx

theorem TableInv.nextOf_eq_none : nextOf ts n = none := by
  rw [nextOf, hv, bind_some, next_of_ctid (hi.unlinked n v hv hx)]

theorem nextOf_updateTuple :
    nextOf (updateTuple ts n v hot xid command row) =
      update (nextOf ts) n (some ts.length) := by
  refine funext fun i => ext fun m => ?_
  rw [nextOf_eq_some, link_updateTuple hi hv hx]
  by_cases hin : i = n
  · subst hin
    rw [update_self, ← nextOf_eq_some, hi.nextOf_eq_none hv hx]
    simp [eq_comm]
  · rw [update_of_ne hin, nextOf_eq_some]
    simp [hin]

end

theorem nextOf_clearTuple (hv : ts[n]? = some v) :
    nextOf (clearTuple ts n v) = update (nextOf ts) n none := by
  refine funext fun i => ext fun m => ?_
  rw [nextOf_eq_some, link_clearTuple hv]
  by_cases hin : i = n
  · subst hin
    rw [update_self]
    simp
  · rw [update_of_ne hin, nextOf_eq_some]
    simp [hin]

namespace TableInv

variable {j : ℕ} (hi : TableInv t ts)

include hi

/-- A chain goes to later and later versions. -/
theorem hops_le (h : hops (nextOf ts) j n = some m) : n + j ≤ m := by
  induction j generalizing n with
  | zero =>
    cases h
    exact le_rfl
  | succ j ih =>
    obtain ⟨i, hni, him⟩ := hops_succ_eq_some.1 h
    have hlt := (hi.link n i (nextOf_eq_some.1 hni)).1
    have := ih him
    omega

theorem hop (hv : ts[n]? = some v) (h : hops (nextOf ts) (j + 1) n = some m) :
    ∃ i u, ts[i]? = some u ∧ hops (nextOf ts) j i = some m ∧ v.header.xmax ≠ 0 ∧
      u.header.ins = v.header.del := by
  obtain ⟨i, hni, him⟩ := hops_succ_eq_some.1 h
  obtain ⟨-, v', u, hv', hu, hx, hins⟩ := hi.link n i (nextOf_eq_some.1 hni)
  obtain rfl := mem_unique hv hv'
  exact ⟨i, u, hu, him, hx, hins⟩

theorem exists_of_hops (hv : ts[n]? = some v) (h : hops (nextOf ts) j n = some m) :
    ∃ w, ts[m]? = some w := by
  induction j generalizing n v with
  | zero =>
    cases h
    exact ⟨v, hv⟩
  | succ j ih =>
    obtain ⟨i, u, hu, him, -⟩ := hi.hop hv h
    exact ih hu him

/-- After a version of a transaction that has not committed there are only its own. -/
theorem owner_of_hops (hv : ts[n]? = some v) (hw : ts[m]? = some w)
    (hd : t.clients.lookup v.header.xmin = some d) (hp : d.phase ≠ .committed)
    (h : hops (nextOf ts) j n = some m) : w.header.xmin = v.header.xmin := by
  induction j generalizing n v with
  | zero =>
    cases h
    rw [mem_unique hv hw]
  | succ j ih =>
    obtain ⟨i, u, hu, him, hx, hins⟩ := hi.hop hv h
    have hown : v.header.xmax = v.header.xmin := ((hi.header n v hv).isOver hx).owner_eq hd hp
    have hux : u.header.xmin = v.header.xmin := (congrArg Stamp.xid hins).trans hown
    exact (ih hu (hux ▸ hd) him).trans hux

section Reader

variable (hc : t.clients.lookup x = some c) (hp : c.phase = .running)
  (hk : k ≤ c.handle.currentCommand)

include hc hp hk

/-- **Who sees a version sees those before it.** -/
theorem sees_of_hops (hv : ts[n]? = some v) (hw : ts[m]? = some w)
    (h : hops (nextOf ts) j n = some m) (hseen : sees t x k w.header.ins = true) :
    sees t x k v.header.ins = true := by
  induction j generalizing n v with
  | zero =>
    cases h
    rwa [mem_unique hv hw]
  | succ j ih =>
    obtain ⟨i, u, hu, him, hx, hins⟩ := hi.hop hv h
    have hh := hi.header n v hv
    have hdel : sees t x k v.header.del = true := hins ▸ ih hu him
    exact (hh.isOver hx).sees hi.txn hi.solo (hh.held hx) hh.inserted.held hc hp hk hdel

/-- **Who sees a later version sees that this one is superseded.** -/
theorem sees_del_of_hops (hv : ts[n]? = some v) (hw : ts[m]? = some w)
    (h : hops (nextOf ts) (j + 1) n = some m) (hseen : sees t x k w.header.ins = true) :
    v.header.xmax ≠ 0 ∧ sees t x k v.header.del = true := by
  obtain ⟨i, u, hu, him, hx, hins⟩ := hi.hop hv h
  exact ⟨hx, hins ▸ hi.sees_of_hops hc hp hk hu hw him hseen⟩

end Reader

/-- A link that a transaction made which rolls back is on no way to a version that counts. -/
theorem hops_clearTuple (hd : t.clients.lookup v.header.xmax = some d) (hf : Failed d)
    (hv : ts[n]? = some v) (hw : ts[m]? = some w) (hne : w.header.xmin ≠ v.header.xmax)
    (h : hops (nextOf ts) j y = some m) : hops (nextOf (clearTuple ts n v)) j y = some m := by
  rw [nextOf_clearTuple hv, hops_update_none]
  refine ⟨h, fun i hij hn => ?_⟩
  obtain ⟨k, hk⟩ := Nat.exists_eq_add_of_lt hij
  have hafter := hops_between hn h hij.le
  rw [show j - i = k + 1 by omega] at hafter
  obtain ⟨i, u, hu, him, hx, hins⟩ := hi.hop hv hafter
  have hux : u.header.xmin = v.header.xmax := congrArg Stamp.xid hins
  exact hne ((hi.owner_of_hops hu hw (hux ▸ hd) hf.ne_committed him).trans hux)

end TableInv

end Index

end UltraSql
