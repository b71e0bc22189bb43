import UltraSql.Heap.Stamps

/-!
# The header of a slot

What holds of a slot: the undo log is that of the live updates, each seen by the writer of the next
one. The header names the newest update if the in-place bit is set, and otherwise a delete or
nobody. Apart from this, `Chain` says that the undo log leads back from the bytes of the row. It
holds as long as rollbacks find the updates that they undo newest.

The header does not say whether a delete that it names has been stamped over another one. This part
does not need to know.

**Theorems (`SlotInv.isVisible_inPlace`, `isVisible_unstamped`, `isVisible_deleted`).** What the
visibility check answers in the three cases.

**Theorem (`SlotInv.undoPreImage_eq`).** What the undo log gives a reader.
-/

namespace UltraSql.Heap

open Timeline (Client Horizon)
open Savepoints (Own)

variable {t t' : Timeline.State} {x z k : ℕ} {c : Client} {w : Write} {sl : Slot}

/-- The live updates of a slot, newest first. -/
def Slot.updates (sl : Slot) : List Write := sl.live.filter (·.isUpdate)

structure SlotInv (t : Timeline.State) (sl : Slot) : Prop where
  heldInsert : Held t sl.inserted
  held : ∀ w ∈ sl.writes, Held t w.stamp
  alive : ∀ w ∈ sl.live, Alive t w
  gone : ∀ w ∈ sl.writes, w.undone = true → Gone t w.stamp
  trimmed : ∀ w ∈ sl.live, w.trimmed = true → ∃ h, Horizon t h ∧ w.stamp.xid < h
  undo : sl.row.undo = sl.updates.filterMap Write.record?
  xmin : sl.row.header.xmin = sl.inserted.xid
  cmin : sl.row.header.cmin = sl.inserted.command
  frozen : sl.row.header.infomask.frozen = false
  inPlace : sl.row.header.infomask.updatedInPlace = true →
    ∃ w, sl.updates.head? = some w ∧ sl.row.header.xmax = w.stamp.xid ∧
      sl.row.header.cmax = w.stamp.command
  classical : sl.row.header.infomask.updatedInPlace = false → sl.row.header.xmax ≠ 0 →
    ∃ w ∈ sl.live, w.change = .delete ∧ sl.row.header.xmax = w.stamp.xid ∧
      sl.row.header.cmax = w.stamp.command
  history : sl.row.undo ≠ [] → sl.row.header.infomask.updatedInPlace = true ∨
    sl.row.header.infomask.inplaceHistory = true
  overInsert : ∀ w ∈ sl.live, Follows t w.stamp sl.inserted
  follows : sl.updates.Pairwise fun a b => Follows t a.stamp b.stamp

/-- The undo log leads from the bytes of the row back to those that were inserted. -/
structure Chain (sl : Slot) : Prop where
  chained : Chained sl.initial sl.updates
  payload : sl.row.payload = valueOf sl.initial sl.updates

theorem mem_live : w ∈ sl.live ↔ w ∈ sl.writes ∧ w.undone = false := by
  rw [Slot.live, List.mem_filter, Bool.not_eq_true']

theorem mem_updates : w ∈ sl.updates ↔ w ∈ sl.live ∧ w.isUpdate = true := List.mem_filter

namespace SlotInv

variable (hs : SlotInv t sl) (hi : Timeline.Inv t) (hc : t.clients.lookup x = some c)
  (hp : c.phase = .running)

include hs

theorem heldLive (hw : w ∈ sl.live) : Held t w.stamp := hs.held w (mem_live.1 hw).1

include hi

/-- A live write below a horizon is committed. -/
theorem committed_of_horizon (hw : w ∈ sl.live) {h : ℕ} (hh : Horizon t h) (hlt : w.stamp.xid < h) :
    ∃ d, t.clients.lookup w.stamp.owner = some d ∧ d.phase = .committed ∧
      Own d.handle w.stamp.xid := by
  obtain ⟨d, hd, hx, -⟩ := hs.heldLive hw
  obtain ⟨d', hd', hold⟩ := hs.alive w hw
  obtain rfl := Option.mem_unique hd hd'
  have hclosed : d.phase.status ≠ .inProgress := fun hopen => by
    have h₁ := (hh.client _ d hd hopen).1
    have h₂ := (hi.client _ d hd).least _ hx
    omega
  refine ⟨d, hd, ?_⟩
  unfold Holds at hold
  cases hph : d.phase with
  | running | undoing _ | aborting _ =>
    rw [hph] at hclosed
    exact absurd rfl hclosed
  | aborted =>
    rw [hph] at hold
    cases hold
  | committed =>
    rw [hph] at hold
    exact ⟨rfl, hold⟩

/-- Of a trimmed write there is nothing left to see through. -/
theorem committed_of_trimmed (hw : w ∈ sl.live) (ht : w.trimmed = true) :
    ∃ d, t.clients.lookup w.stamp.owner = some d ∧ d.phase = .committed ∧
      Own d.handle w.stamp.xid := by
  obtain ⟨h, hh, hlt⟩ := hs.trimmed w hw ht
  exact hs.committed_of_horizon hi hw hh hlt

include hc hp

theorem sees_of_trimmed (hw : w ∈ sl.live) (ht : w.trimmed = true) :
    sees t x k w.stamp = true := by
  obtain ⟨h, hh, hlt⟩ := hs.trimmed w hw ht
  obtain ⟨d, hd, hcom, hown⟩ := hs.committed_of_trimmed hi hw ht
  have hne : w.stamp.owner ≠ x := Timeline.ne_of_phase hc hd (by rw [hp, hcom]; nofun)
  rw [← committedBefore_iff_sees hi hc (hs.heldLive hw) hne, isCommittedBeforeSnapshot_iff,
    hi.status_own hd hown, hcom]
  refine ⟨?_, rfl⟩
  have hx := (hh.client x c hc (by rw [hp]; rfl)).2
  rw [← Bool.not_eq_true, Snapshot.xidInProgress_iff]
  omega

omit hi in
/-- On a row of the reader's own transaction there are only its own writes. -/
theorem own_of_ownInsert (ho : sl.inserted.owner = x) (hw : w ∈ sl.live) :
    w.stamp.owner = x ∧ Own c.handle w.stamp.xid := by
  subst ho
  have hne : c.phase ≠ .committed := by
    rw [hp]
    nofun
  have ho := (hs.overInsert w hw).owner_eq hc hne
  exact ⟨ho, (hs.alive w hw).own (ho ▸ hc) (.inl hp)⟩

/-! ### The visibility check -/

omit hi hc hp in
theorem headerInserted : Inserted t sl.row.header sl.inserted :=
  ⟨hs.heldInsert, hs.xmin, hs.cmin, hs.frozen⟩

omit hp in
theorem isVisible_unseen (h : sees t x k sl.inserted = false) :
    isVisible sl.row.header (snapshotAt c k) t.mgr.status = .invisible := by
  rw [hs.headerInserted.isVisible_eq hi hc, h]
  rfl

/-- How the reader's snapshot has the XID of a live write. -/
theorem liveXid (hw : w ∈ sl.live) : KnownXid t x c k w.stamp :=
  (hs.heldLive hw).knownXid hi hc fun ho => (hs.alive w hw).own (ho ▸ hc) (.inl hp)

section

variable (hseen : sees t x k sl.inserted = true)
  (hu : sl.row.header.infomask.updatedInPlace = false)
include hseen hu

omit hu in
theorem isVisible_inPlace (hu : sl.row.header.infomask.updatedInPlace = true)
    (hw : sl.updates.head? = some w) :
    isVisible sl.row.header (snapshotAt c k) t.mgr.status =
      if sees t x k w.stamp = true then .visible else .visiblePreImage := by
  obtain ⟨w', hw', hxmax, hcmax⟩ := hs.inPlace hu
  obtain rfl := Option.mem_unique hw' hw
  have hmem : w' ∈ sl.live := (mem_updates.1 (List.mem_of_mem_head? hw)).1
  have hne := (hs.heldLive hmem).ne_zero hi
  obtain ⟨hroll, hown, hforeign⟩ := hs.liveXid (k := k) hi hc hp hmem
  rw [hs.headerInserted.isVisible_eq hi hc, if_pos hseen]
  by_cases ho : sl.inserted.owner = x
  · rw [if_pos ho]
    have hwo := (hs.own_of_ownInsert hc hp ho hmem).1
    obtain ⟨hcur, hiff⟩ := hown hwo
    have hlt : ¬ (snapshotAt c k).currentCommand ≤ sl.row.header.cmin :=
      not_le.2 (hs.headerInserted.cmin_lt hc ho hseen)
    unfold isVisibleOwn
    rw [if_neg hlt, hxmax, hcmax, hroll, hu, hcur, Bool.and_false]
    simp only [Bool.false_eq_true, if_false, Bool.and_true, if_true, hiff, ← not_lt, ite_not]
    rfl
  · rw [if_neg ho]
    unfold isVisibleForeign
    rw [hxmax, hcmax, hroll, hu]
    simp only [Xid.isInvalid_iff, hne, if_false, Bool.false_eq_true, if_true]
    by_cases hwo : w'.stamp.owner = x
    · obtain ⟨hcur, hiff⟩ := hown hwo
      simp only [hcur, if_true, hiff]
      rfl
    · obtain ⟨hcur, hiff⟩ := hforeign hwo
      simp only [hcur, Bool.false_eq_true, if_false, hiff]

omit hp in
theorem isVisible_unstamped (hx : sl.row.header.xmax = 0) :
    isVisible sl.row.header (snapshotAt c k) t.mgr.status =
      if sl.inserted.owner = x then .visible else sl.row.header.visibleOutcome :=
  hs.headerInserted.isVisible_unstamped hi hc hseen hu hx

theorem isVisible_deleted (hw : w ∈ sl.live) (hxmax : sl.row.header.xmax = w.stamp.xid)
    (hcmax : sl.row.header.cmax = w.stamp.command) :
    isVisible sl.row.header (snapshotAt c k) t.mgr.status =
      if sees t x k w.stamp = true then
        if sl.inserted.owner = x then .deletedByOwn else .invisible
      else if sl.inserted.owner = x then .visible else sl.row.header.visibleOutcome :=
  hs.headerInserted.isVisible_deleted hi hc hseen hu (hs.heldLive hw) (hs.liveXid hi hc hp hw)
    (fun ho => (hs.own_of_ownInsert hc hp ho hw).1) hxmax hcmax

end

/-! ### The undo log -/

omit hp in
theorem visible_eq_sees (hw : w ∈ sl.live) :
    w.visible (snapshotAt c k) t.mgr.status = sees t x k w.stamp :=
  undoWriterVisible_eq_sees hi hc (hs.heldLive hw)

omit hi hc hp in
theorem follows_head (hw : sl.updates.head? = some w) (hu : u ∈ sl.updates) :
    u = w ∨ Follows t w.stamp u.stamp := by
  obtain ⟨rest, hrest⟩ := List.head?_eq_some_iff.1 hw
  have hf := hs.follows
  rw [hrest] at hu hf
  exact (List.mem_cons.1 hu).imp_right ((List.pairwise_cons.1 hf).1 u)

/-- Who sees the newest update sees all of them. -/
theorem updates_seen_of_head (hw : sl.updates.head? = some w) (hseen : sees t x k w.stamp = true) :
    ∀ u ∈ sl.updates, sees t x k u.stamp = true := by
  intro u hu
  rcases hs.follows_head hw hu with rfl | hf
  · exact hseen
  · exact hf.sees hi hc hp (hs.heldLive (mem_updates.1 (List.mem_of_mem_head? hw)).1)
      (hs.alive u (mem_updates.1 hu).1) hseen

omit hp in
theorem undo_visible_iff :
    (∀ u ∈ sl.row.undo, undoWriterVisible u.writerXid u.commandId (snapshotAt c k) t.mgr.status) ↔
      ∀ w ∈ sl.updates, w.trimmed = false → sees t x k w.stamp = true := by
  rw [hs.undo]
  constructor
  · intro h w hw ht
    obtain ⟨old, new, inverse, hch⟩ := isUpdate_iff.1 (mem_updates.1 hw).2
    rw [← hs.visible_eq_sees hi hc (mem_updates.1 hw).1]
    exact h _ (List.mem_filterMap.2 ⟨w, hw, record?_of_update hch ht⟩)
  · intro h u hu
    obtain ⟨w, hw, hr⟩ := List.mem_filterMap.1 hu
    obtain ⟨ht, hx, hk, -⟩ := record?_eq_some hr
    rw [hx, hk]
    exact (hs.visible_eq_sees hi hc (mem_updates.1 hw).1).trans (h w hw ht)

/-- **What the undo log gives a reader**: the bytes of the newest update that it sees, if there is
an update that it does not see. -/
theorem undoPreImage_eq (hchain : Chain sl) :
    undoPreImage sl.row.undo sl.row.payload (snapshotAt c k) t.mgr.status =
      if sl.updates.all fun w => sees t x k w.stamp then none
      else some (valueOf sl.initial (sl.updates.filter fun w => sees t x k w.stamp)) := by
  have hvis : ∀ w ∈ sl.updates, w.visible (snapshotAt c k) t.mgr.status = sees t x k w.stamp :=
    fun w hw => hs.visible_eq_sees hi hc (mem_updates.1 hw).1
  have hall : (sl.updates.all fun w => w.visible (snapshotAt c k) t.mgr.status) =
      sl.updates.all fun w => sees t x k w.stamp := by
    rw [Bool.eq_iff_iff, List.all_eq_true, List.all_eq_true]
    exact forall₂_congr fun w hw => by rw [hvis w hw]
  rw [undoPreImage, hs.undo, ← hall, ← List.filter_congr hvis]
  refine undoLoop_chain (p := sl.initial) (fun w hw => (mem_updates.1 hw).2) hchain.chained ?_
    (fun w hw ht => ?_) hchain.payload
  · refine hs.follows.imp_of_mem fun {a b} ha hb hf hseen => ?_
    have ha' := (mem_updates.1 ha).1
    have hb' := (mem_updates.1 hb).1
    rw [hvis a ha] at hseen
    rw [hvis b hb]
    exact hf.sees hi hc hp (hs.heldLive ha') (hs.alive b hb') hseen
  · rw [hvis w hw]
    exact hs.sees_of_trimmed hi hc hp (mem_updates.1 hw).1 ht

end SlotInv

end UltraSql.Heap
