import UltraSql.Heap.Shape

/-!
# What a snapshot reads

`Row.read` combines the visibility check with the undo log, and `Slot.expected` is the newest write
that the snapshot sees.

**Theorem (`read_eq_expected`).** They agree for every history in which rollbacks find the updates
that they undo newest, and for every snapshot and command, except for a row of the reader's own that
has in-place history from the same command or a later one.

**Counterexamples (`rollback_leaves_undone_update`, `own_row_reads_later_update`).** ROLLBACK TO
visits the subtransactions oldest first, which leaves the bytes of the first one. The visibility
check sends a reader of its own row past the undo log.
-/

namespace UltraSql.Heap

open List
open Timeline (Client)

variable {s s' : State} {t : Timeline.State} {a : Act} {x k : ℕ} {c : Client} {w : Write}
  {sl : Slot}

/-! ## The newest write that is seen -/

section

variable (hi : Timeline.Inv t) (hc : t.clients.lookup x = some c) (hp : c.phase = .running)
include hi hc hp

/-- Writes that are undone do not count. -/
theorem SlotInv.find?_writes (hs : SlotInv t sl) :
    sl.writes.find? (sees t x k ·.stamp) = sl.live.find? (sees t x k ·.stamp) := by
  rw [← head?_filter, ← head?_filter, Slot.live, filter_filter]
  refine congrArg head? (filter_congr fun w hw => ?_)
  cases hu : w.undone with
  | false => simp
  | true => rw [(hs.gone w hw hu).sees_eq_false hi hc hp, Bool.false_and]

/-- The newest live write that is seen, if the insert is. -/
theorem SlotInv.expected_eq (hs : SlotInv t sl) (hseen : sees t x k sl.inserted = true) :
    sl.expected (sees t x k) =
      (sl.live.find? (sees t x k ·.stamp)).elim (some sl.initial) Write.result := by
  unfold Slot.expected
  rw [if_pos hseen, hs.find?_writes hi hc hp]
  cases sl.live.find? (sees t x k ·.stamp) <;> rfl

end

/-- Among updates, the newest one that is seen has left the bytes. -/
theorem result_of_updates {us : List Write} (hup : ∀ u ∈ us, u.isUpdate = true) (p : Payload)
    (seen : Write → Bool) :
    (us.find? seen).elim (some p) Write.result = some (valueOf p (us.filter seen)) := by
  rw [← head?_filter]
  cases hf : us.filter seen with
  | nil => rfl
  | cons w rest =>
    have hw : w ∈ us := mem_of_mem_filter (hf ▸ mem_cons_self)
    obtain ⟨old, new, inverse, hch⟩ := isUpdate_iff.1 (hup w hw)
    rw [valueOf_update hch]
    simp [Write.result, hch]

/-! ## What is read -/

/-- A row of the reader's own that is not stamped as updated in place has no updates of the reader's
command or later ones. -/
def Row.historySeen (r : Row) (s : Snapshot) : Prop :=
  s.isCurrentXid r.header.xmin = true → r.header.infomask.updatedInPlace = false →
    ∀ u ∈ r.undo, u.commandId < s.currentCommand

instance (r : Row) (s : Snapshot) : Decidable (r.historySeen s) :=
  inferInstanceAs (Decidable (_ → _))

section Read

variable (hs : SlotInv t sl) (hch : Chain sl) (hi : Timeline.Inv t)
  (hc : t.clients.lookup x = some c) (hp : c.phase = .running)

include hs hch hi hc hp

/-- What the undo log leaves of the bytes. -/
theorem SlotInv.preImage_getD :
    (undoPreImage sl.row.undo sl.row.payload (snapshotAt c k) t.mgr.status).getD sl.row.payload =
      valueOf sl.initial (sl.updates.filter fun w => sees t x k w.stamp) := by
  rw [hs.undoPreImage_eq hi hc hp hch]
  split_ifs with hall
  · rw [filter_eq_self.2 (all_eq_true.1 hall)]
    exact hch.payload
  · rfl

omit hch in
/-- All updates are seen if there is no undo record. -/
theorem SlotInv.updates_seen_of_nil (hnil : sl.row.undo = []) :
    ∀ w ∈ sl.updates, sees t x k w.stamp = true := by
  intro w hw
  refine hs.sees_of_trimmed hi hc hp (mem_updates.1 hw).1 ?_
  by_contra ht
  obtain ⟨old, new, inverse, hw'⟩ := isUpdate_iff.1 (mem_updates.1 hw).2
  have := mem_filterMap.2 ⟨w, hw, record?_of_update hw' (Bool.not_eq_true _ |>.mp ht)⟩
  rw [← hs.undo, hnil] at this
  cases this

/-- What a row reads whose header does not stop the reader. -/
theorem SlotInv.readAs_outcome (hseen : sees t x k sl.inserted = true)
    (hu : sl.row.header.infomask.updatedInPlace = false)
    (hown : sl.row.historySeen (snapshotAt c k)) :
    sl.row.readAs (snapshotAt c k) t.mgr.status
        (if sl.inserted.owner = x then .visible else sl.row.header.visibleOutcome) =
      some (valueOf sl.initial (sl.updates.filter fun w => sees t x k w.stamp)) := by
  -- the bytes of the row are right if every update is seen
  have hall : (∀ w ∈ sl.updates, sees t x k w.stamp = true) → some sl.row.payload =
      some (valueOf sl.initial (sl.updates.filter fun w => sees t x k w.stamp)) := fun h => by
    rw [filter_eq_self.2 h, hch.payload]
  split_ifs with ho
  · refine hall fun w hw => ?_
    obtain ⟨hwo, hwown⟩ := hs.own_of_ownInsert hc hp ho (mem_updates.1 hw).1
    refine (sees_own hc hwo).2 ⟨hwown, ?_⟩
    have hcur : (snapshotAt c k).isCurrentXid sl.row.header.xmin = true := by
      rw [hs.xmin]
      exact (own_xid_iff hi hc).1.2 ((sees_own hc ho).1 hseen).1
    cases ht : w.trimmed with
    | true =>
      obtain ⟨d, hd, hcom, -⟩ := hs.committed_of_trimmed hi (mem_updates.1 hw).1 ht
      rw [hwo, hc] at hd
      cases hd
      rw [hp] at hcom
      cases hcom
    | false =>
      obtain ⟨old, new, inverse, hw'⟩ := isUpdate_iff.1 (mem_updates.1 hw).2
      have hmem := mem_filterMap.2 ⟨w, hw, record?_of_update hw' ht⟩
      rw [← hs.undo] at hmem
      exact hown hcur hu _ hmem
  · unfold TupleHeader.visibleOutcome
    split_ifs with hh
    · exact congrArg some (hs.preImage_getD hch hi hc hp)
    · refine hall (hs.updates_seen_of_nil hi hc hp ?_)
      by_contra hne
      rcases hs.history hne with h | h
      · exact absurd (h.symm.trans hu) nofun
      · exact hh h

/-- **A slot of the right shape reads as it should.** -/
theorem Shape.read_eq (h : Shape t sl) (hown : sl.row.historySeen (snapshotAt c k)) :
    sl.row.read (snapshotAt c k) t.mgr.status = sl.expected (sees t x k) := by
  unfold Row.read
  by_cases hseen : sees t x k sl.inserted = true
  swap
  · rw [hs.isVisible_unseen hi hc (Bool.not_eq_true _ |>.mp hseen), Slot.expected, if_neg hseen]
    rfl
  rw [hs.expected_eq hi hc hp hseen]
  have hup : ∀ u ∈ sl.updates, u.isUpdate = true := fun u hu => (mem_updates.1 hu).2
  by_cases hdel : ∃ d ∈ sl.live, d.change = .delete
  · -- the newest write is a delete, and the header names it
    obtain ⟨d, hd, hch'⟩ := hdel
    have hhead := h.head_of_delete hd hch'
    obtain ⟨hu, hxmax, hcmax⟩ := h.delete d hhead hch'
    obtain ⟨rest, hrest⟩ := head?_eq_some_iff.1 hhead
    have hupd : sl.updates = rest := by
      have hunder := h.under
      rw [hrest] at hunder
      rw [Slot.updates, hrest, filter_cons_of_neg (by simp [not_isUpdate_iff.2 hch'])]
      exact filter_eq_self.2 hunder
    rw [hs.isVisible_deleted hi hc hp hseen hu hd hxmax hcmax, hrest, find?_cons]
    cases hds : sees t x k d.stamp with
    | true =>
      rw [if_pos rfl]
      split_ifs <;> simp [Row.readAs, Write.result, hch']
    | false =>
      rw [if_neg (by simp), hs.readAs_outcome hch hi hc hp hseen hu hown, ← hupd]
      exact (result_of_updates hup _ _).symm
  · -- there are only updates
    have hlive : sl.live = sl.updates :=
      (Shape.live_eq_updates fun w hw hw' => hdel ⟨w, hw, hw'⟩).symm
    rw [hlive, result_of_updates hup]
    cases hu : sl.row.header.infomask.updatedInPlace with
    | true =>
      obtain ⟨w, hw, -⟩ := hs.inPlace hu
      rw [hs.isVisible_inPlace hi hc hp hseen hu hw]
      split_ifs with hws
      · rw [filter_eq_self.2 (hs.updates_seen_of_head hi hc hp hw hws), ← hch.payload]
        rfl
      · refine (hs.undoPreImage_eq hi hc hp hch).trans (if_neg fun hall => hws ?_)
        exact all_eq_true.1 hall w (mem_of_mem_head? hw)
    | false =>
      have hx : sl.row.header.xmax = 0 := by
        by_contra hx
        obtain ⟨d, hd, hch', -⟩ := hs.classical hu hx
        exact hdel ⟨d, hd, hch'⟩
      rw [hs.isVisible_unstamped hi hc hseen hu hx]
      exact hs.readAs_outcome hch hi hc hp hseen hu hown

end Read

/-- The conditions on the steps. -/
def ReadSafe (s : State) (a : Act) : Prop :=
  Timed s a ∧ ObeysRule s a ∧ UndoesNewest s a ∧ UndoesDeletes s a

instance instDecidableRelReadSafe : DecidableRel ReadSafe := fun _ _ =>
  inferInstanceAs (Decidable (_ ∧ _))

/-- **A snapshot reads the newest write that it sees**, at every command and in every history in
which writers obey the rule and rollbacks undo the newest writes. -/
theorem read_eq_expected {s : State} (h : machine.Reach ReadSafe s) {sl : Slot} (hsl : sl ∈ s.slots)
    {x : ℕ} {c : Client} (hc : s.txn.clients.lookup x = some c) (hp : c.phase = .running) {k : ℕ}
    (hown : sl.row.historySeen (snapshotAt c k)) :
    sl.row.read (snapshotAt c k) s.txn.mgr.status = sl.expected (sees s.txn x k) := by
  have horder : Orderly s := Machine.Reach.invariant (P := Orderly) orderly_init
    (fun s a s' _ hs hC hstep => hs.step hC.1 hC.2.1 hC.2.2.1 hC.2.2.2 hstep) h
  exact (horder.shape sl hsl).read_eq (horder.inv.slot sl hsl) (horder.chain sl hsl) horder.inv.txn
    hc hp hown

/-- What each slot reads for a running transaction, at some command, beside what it should read. -/
def State.compare (s : State) (x k : ℕ) : Option (List (Option Payload × Option Payload)) :=
  (s.running x).map fun c => s.slots.map fun sl =>
    (sl.row.read (snapshotAt c k) s.txn.mgr.status, sl.expected (sees s.txn x k))

/-- A reader beside a transaction that has updated the row, and once more under a savepoint that is
rolled back. -/
theorem read_beside_restored_update : ∃ s c sl, machine.Reach ReadSafe s ∧
    sl ∈ s.slots ∧ s.running 7 = some c ∧ sl.row.historySeen (snapshotAt c 0) ∧
    sl.row.payload = { id := 1, val := 15 } ∧
    sl.row.read (snapshotAt c 0) s.txn.mgr.status = sl.expected (sees s.txn 7 0) := by
  obtain ⟨s, hs, hrun, hslots⟩ := Machine.exists_reach_of_runIf (M := machine) (C := ReadSafe)
    (p := fun s => ((s.running 7).any fun c => s.slots.all fun sl =>
        sl.row.historySeen (snapshotAt c 0)) = true ∧
      s.slots.map (·.row.payload) = [{ id := 1, val := 15 }])
    (restoredUpdate ++ opening 7 .readCommitted) (by decide)
  obtain ⟨c, hc, hseen⟩ := (Option.any_eq_true _ _).mp hrun
  obtain ⟨hlook, hp⟩ := running_eq_some.1 hc
  obtain ⟨sl, hsl⟩ := length_eq_one_iff.1 ((length_map _).symm.trans
    (congrArg length hslots))
  have hmem : sl ∈ s.slots := by simp [hsl]
  have hown := of_decide_eq_true (all_eq_true.1 hseen sl hmem)
  rw [hsl] at hslots
  exact ⟨s, c, sl, hs, hmem, hc, hown, singleton_inj.1 hslots,
    read_eq_expected hs hmem hlook hp hown⟩

/-- **ROLLBACK TO leaves an update that it has undone.** The transaction 4 updates a committed row
under the savepoint `a` and again under `b`, and rolls back to `a`. -/
theorem rollback_leaves_undone_update : ∃ s,
    machine.Reach (fun s a => Timed s a ∧ ObeysRule s a) s ∧
    s.compare 8 0 = some [(some { id := 1, val := 15 }, some { id := 1, val := 10 })] :=
  Machine.exists_reach_of_runIf
    (committedRow ++ opening 4 .readCommitted ++ newXid 5 ++
      [.txn (.savepoint 4 5 "a"), .update 4 0 .tid (fun _ => true) .val 5, .txn (.refresh 4 6)] ++
      newXid 6 ++ [.txn (.savepoint 4 6 "b"), .update 4 0 .tid (fun _ => true) .val 7] ++
      newXid 7 ++ [.txn (.rollbackTo 4 7 "a"), .visit 4, .visit 4, .visit 4, .visit 4,
        .txn (.commit 4)] ++ opening 8 .readCommitted)
    (by decide)

/-- **A reader of its own row is not led to the undo log.** The row is inserted, updated and deleted
by the commands 0, 1 and 2, and read as of the command 1. -/
theorem own_row_reads_later_update : ∃ s, machine.Reach ReadSafe s ∧
    s.compare 3 1 = some [(some { id := 1, val := 15 }, some { id := 1, val := 10 })] :=
  Machine.exists_reach_of_runIf
    (opening 3 .readCommitted ++ [.insert 3 { id := 1, val := 10 }, .txn (.refresh 3 4),
      .update 3 0 .tid (fun _ => true) .val 5, .txn (.refresh 3 4), .delete 3 0 (fun _ => true)])
    (by decide)

end UltraSql.Heap
