import UltraSql.Heap.SnapshotReads

/-!
# Committed writes are not lost

Histories without savepoints: every transaction writes under one XID. A writer visits a slot in one
step, with a check of the header against its own snapshot. The check of the in-place update looks at
the visibility of the row only, so that it passes over a delete that has not committed, or has
committed too late for the snapshot. The check of the delete has one more condition, which holds off
a writer that is in progress.

**Theorem (`committed_write_kept`).** As long as no statement meets such a delete, what a
transaction has written and committed is there for every later snapshot, no writer stamps over a
write that it does not see, and no rollback clears the stamp of a transaction that has committed.

**Counterexample (`committed_delete_lost`).** An update over a delete in progress, which then
commits. The update is rolled back, and the row is there again.
-/

namespace UltraSql.Heap

open List Timeline

variable {s s' : State} {t t' : Timeline.State} {a : Act} {x z k : ℕ} {c d : Client} {w : Write}
  {sl : Slot} {st : Stamp}

/-- A step without savepoints. -/
def Plain : Act → Prop
  | .txn (.savepoint ..) | .txn (.release ..) | .txn (.rollbackTo ..) => False
  | _ => True

instance : DecidablePred Plain := fun a => by
  unfold Plain
  split <;> infer_instance

/-- A statement does not meet a delete of another transaction that it fails to notice: for an update
one that its snapshot does not see, for a delete one that has committed after the snapshot. -/
def ClearOfDelete (s : State) (a : Act) : Prop :=
  match a with
  | .update x i .. =>
    ∀ c ∈ s.running x, ∀ sl ∈ s.slots[i]?, sl.row.header.infomask.updatedInPlace = false →
      sl.row.header.xmax ≠ 0 → c.handle.snapshot.isCurrentXid sl.row.header.xmax = true ∨
        isCommittedBeforeSnapshot sl.row.header.xmax c.handle.snapshot s.txn.mgr.status = true
  | .delete x i _ =>
    ∀ c ∈ s.running x, ∀ sl ∈ s.slots[i]?, sl.row.header.infomask.updatedInPlace = false →
      sl.row.header.xmax ≠ 0 → c.handle.snapshot.isCurrentXid sl.row.header.xmax = true ∨
        isCommittedBeforeSnapshot sl.row.header.xmax c.handle.snapshot s.txn.mgr.status = true ∨
        (s.txn.mgr.status sl.row.header.xmax).isInProgress = true
  | _ => True

instance : DecidableRel ClearOfDelete := fun s a =>
  match a with
  | .update .. | .delete .. => by delta ClearOfDelete; infer_instance
  | .txn _ | .insert .. | .enter .. | .visit _ | .sample _ | .trim _ | .mark _ | .markElsewhere =>
    isTrue trivial

/-- The conditions on the steps. -/
def KeepsWrites (s : State) (a : Act) : Prop := Timed s a ∧ Plain a ∧ ClearOfDelete s a

instance instDecidableRelKeepsWrites : DecidableRel KeepsWrites := fun _ _ =>
  inferInstanceAs (Decidable (_ ∧ _))

theorem Plain.txn {b : Timeline.Act} (h : Plain (.txn b)) : b.plain = true := by
  cases b with
  | savepoint | release | rollbackTo => cases h
  | _ => rfl

/-! ## Statements -/

/-- The writer and the slot of a statement. -/
def Act.target : Act → Option (ℕ × ℕ)
  | .update x i .. | .delete x i _ => some (x, i)
  | _ => none

/-- A statement of `x` that may change the slot. -/
structure Ready (t : Timeline.State) (x : ℕ) (c : Client) (sl : Slot) : Prop where
  fresh : Untouched sl x c.handle.currentCommand
  admits : Admits sl.row (isVisible sl.row.header c.handle.snapshot t.mgr.status) c.handle.snapshot
    t.mgr.status
  clear : sl.row.header.infomask.updatedInPlace = false → sl.row.header.xmax ≠ 0 →
    c.handle.snapshot.isCurrentXid sl.row.header.xmax = true ∨
      isCommittedBeforeSnapshot sl.row.header.xmax c.handle.snapshot t.mgr.status = true

theorem untouched_of_statement {i : ℕ}
    {f : Client → Slot → Except WriteError (Option Row) × Change}
    (h : s.statement x i f = some s') (hrun : s.running x = some c) (hsl : s.slots[i]? = some sl) :
    Untouched sl x c.handle.currentCommand := by
  unfold State.statement at h
  rw [hrun, hsl] at h
  dsimp only at h
  split_ifs at h with hfresh
  exact ⟨hfresh.1, hfresh.2⟩

theorem affects_iff {r : Except WriteError (Option Row)} :
    affects r = true ↔ ∃ row, r = .ok (some row) := by
  unfold affects
  split <;> simp_all

section Orderly

variable (ho : Orderly s) (hc : s.txn.clients.lookup x = some c) (hp : c.phase = .running)

include ho hc hp

theorem Orderly.ready (hclear : ClearOfDelete s a) (h : Heap.step s a = some s') {i : ℕ}
    (ha : a.target = some (x, i)) (hsl : s.slots[i]? = some sl)
    (haff : affects (s.attempt a c sl) = true) : Ready s.txn x c sl := by
  have hrun := running_eq_some.2 ⟨hc, hp⟩
  have hs := ho.inv.slot sl (mem_of_getElem? hsl)
  have hcur := snapshotAt_current (ho.inv.txn.client x c hc).command
  obtain ⟨row, hrow⟩ := affects_iff.1 haff
  cases a with cases ha
  | update y j form predicate col delta =>
    have hfresh := untouched_of_statement h hrun hsl
    refine ⟨hfresh, ?_, hclear c hrun sl hsl⟩
    rw [← hcur]
    have hadm := (Row.update_ok hrow).1
    rw [← hcur] at hadm
    exact hs.admits_isVisible ho.inv.txn hc hfresh hadm
  | delete y j predicate =>
    obtain ⟨hadm, hconf, -⟩ := Row.delete_ok hrow
    refine ⟨untouched_of_statement h hrun hsl, hadm, fun hu hx => ?_⟩
    rcases hclear c hrun sl hsl hu hx with hown | hbefore | hin
    · exact .inl hown
    · exact .inr hbefore
    · -- the delete looks for a writer that is in progress
      by_cases hmine : sl.row.header.xmax = c.handle.writeXid
      · rw [hmine]
        exact .inl ((own_xid_iff ho.inv.txn hc).1.2 Savepoints.own_writeXid)
      · rw [hconf hx hmine] at hin
        cases hin

variable (hmem : sl ∈ s.slots) (hr : Ready s.txn x c sl)

include hmem hr

theorem Orderly.writable : sees s.txn x c.handle.currentCommand sl.inserted = true ∧
    ∀ w ∈ sl.updates, sees s.txn x c.handle.currentCommand w.stamp = true := by
  have hs := ho.inv.slot sl hmem
  have hadm := hr.admits
  rw [← snapshotAt_current (ho.inv.txn.client x c hc).command] at hadm
  exact hs.writable ho.inv.txn hc hp hr.fresh (hs.walks ho.inv.txn hc hp (ho.chain sl hmem)) hadm

/-- The XID of a write that is own or seen, as the header has it. -/
theorem Orderly.stamp_seen : sl.row.header.xmax = 0 ∨
    c.handle.snapshot.isCurrentXid sl.row.header.xmax = true ∨
      isCommittedBeforeSnapshot sl.row.header.xmax c.handle.snapshot s.txn.mgr.status = true := by
  have hs := ho.inv.slot sl hmem
  cases hu : sl.row.header.infomask.updatedInPlace with
  | false => exact or_iff_not_imp_left.2 (hr.clear hu)
  | true =>
    obtain ⟨w, hw, hx, -⟩ := hs.inPlace hu
    have hw' := mem_of_mem_head? hw
    have hlive := (mem_updates.1 hw').1
    have hseen := (ho.writable hc hp hmem hr).2 w hw'
    rw [hx]
    by_cases hwo : w.stamp.owner = x
    · exact .inr (.inl ((own_xid_iff ho.inv.txn hc).1.2 ((sees_own hc hwo).1 hseen).1))
    · exact .inr (.inr ((committedBefore_iff_sees ho.inv.txn hc (hs.heldLive hlive) hwo).2 hseen))

theorem Orderly.rule : sl.last.owner = x ∨
    sees s.txn x c.handle.currentCommand sl.last = true := by
  have hs := ho.inv.slot sl hmem
  obtain ⟨hins, hall⟩ := ho.writable hc hp hmem hr
  unfold Slot.last
  cases hl : sl.live.head? with
  | none => exact .inr hins
  | some w =>
    have hlive : w ∈ sl.live := mem_of_mem_head? hl
    show w.stamp.owner = x ∨ sees s.txn x c.handle.currentCommand w.stamp = true
    cases hup : w.isUpdate with
    | true => exact .inr (hall w (mem_updates.2 ⟨hlive, hup⟩))
    | false =>
      obtain ⟨hu, hxmax, -⟩ := (ho.shape sl hmem).delete w hl (not_isUpdate_iff.1 hup)
      have hheld := hs.heldLive hlive
      refine or_iff_not_imp_left.2 fun hwo => ?_
      rcases hr.clear hu (hxmax ▸ hheld.ne_zero ho.inv.txn) with hown | hbefore
      · rw [hxmax, (foreign_xid ho.inv.txn hc hheld hwo).1] at hown
        cases hown
      · rw [hxmax] at hbefore
        exact (committedBefore_iff_sees ho.inv.txn hc hheld hwo).1 hbefore

end Orderly

/-! ## Visits -/

/-- The header names a write over every live update. -/
theorem Shape.owner_of_header (h : Shape t sl) (hs : SlotInv t sl) {u : Write}
    (hx : sl.row.header.xmax ≠ 0) (hu : u ∈ sl.updates)
    (hd : t.clients.lookup u.stamp.owner = some d) (hcom : d.phase ≠ .committed) :
    ∃ w ∈ sl.live, sl.row.header.xmax = w.stamp.xid ∧ w.stamp.owner = u.stamp.owner := by
  have hover : ∀ {w : Write} {ws : List Write}, ws.head? = some w → u ∈ ws →
      ws.Pairwise (fun a b => Follows t a.stamp b.stamp) → w.stamp.owner = u.stamp.owner := by
    intro w ws hw hmem hf
    obtain ⟨rest, rfl⟩ := head?_eq_some_iff.1 hw
    rcases mem_cons.1 hmem with rfl | hmem
    · rfl
    · exact ((pairwise_cons.1 hf).1 u hmem).owner_eq hd hcom
  cases hup : sl.row.header.infomask.updatedInPlace with
  | true =>
    obtain ⟨w, hw, hxmax, -⟩ := hs.inPlace hup
    exact ⟨w, (mem_updates.1 (mem_of_mem_head? hw)).1, hxmax, hover hw hu hs.follows⟩
  | false =>
    obtain ⟨w, hw, hdel, hxmax, -⟩ := hs.classical hup hx
    exact ⟨w, hw, hxmax, hover (h.head_of_delete hw hdel) (mem_updates.1 hu).1 h.follows⟩

section Visit

variable (ho : Orderly s) (hsolo : Solo s.txn) {u : ℕ × Visit} {todo : List (ℕ × Visit)}
  {p : Timeline.Phase} (hc : s.txn.clients.lookup x = some c) (hp : Timeline.Visits c u todo p)

include ho hsolo hc hp

theorem Orderly.visit_xid : u.1 = x :=
  hsolo x c hc _ (ho.inv.condemned x c u.1 u.2 hc
    (by rw [(todo_of_visit hp).2]; exact mem_cons_self)).1

/-- A row with an update of the visiting transaction is stamped by it. -/
theorem Orderly.header_of_touched (hmem : sl ∈ s.slots) (htouch : sl.touched u.1 = true)
    (hx : sl.row.header.xmax ≠ 0) : sl.row.header.xmax = u.1 := by
  have hs := ho.inv.slot sl hmem
  have hu := ho.visit_xid hsolo hc hp
  obtain ⟨w, hw, hwx, -⟩ := hs.touched_iff.1 htouch
  have hwo : w.stamp.owner = x := by
    rw [← (hs.heldLive (mem_updates.1 hw).1).xid_eq hsolo, hwx, hu]
  obtain ⟨v, hv, hxv, hvo⟩ := (ho.shape sl hmem).owner_of_header hs hx hw (hwo ▸ hc)
    (not_committed_of_visit hp)
  rw [hxv, (hs.heldLive hv).xid_eq hsolo, hvo, hwo, hu]

/-- **A visit does not clear the stamp of a committed transaction.** -/
theorem Orderly.header_of_visit (hmem : sl ∈ s.slots) (hx : sl.row.header.xmax ≠ 0)
    (hcom : s.txn.mgr.status sl.row.header.xmax = .committed) :
    (sl.undo u todo).row.header = sl.row.header := by
  have hu := ho.visit_xid hsolo hc hp
  have hopen : s.txn.mgr.status u.1 = .inProgress := by
    rw [hu, ho.inv.txn.status_own hc (.inl (ho.inv.txn.client x c hc).xid.symm)]
    rcases hp with ⟨hp, -⟩ | ⟨hp, -⟩ <;> rw [hp] <;> rfl
  have hne : sl.row.header.xmax ≠ u.1 := fun heq => by
    rw [heq, hopen] at hcom
    cases hcom
  obtain ⟨z, v⟩ := u
  cases v with
  | updates =>
    have huntouched : ¬ sl.touched z = true := fun htouch =>
      hne (ho.header_of_touched hsolo hc hp hmem htouch hx)
    rw [show sl.undo (z, .updates) todo = sl.undoUpdates z todo from rfl,
      SlotInv.undoUpdates_of_untouched huntouched]
  | stamps =>
    have hrow : (sl.undoStamps z).row = sl.row := if_pos (.inl hne)
    exact congrArg Row.header hrow

end Visit

theorem Orderly.undoesNewest (ho : Orderly s) (hsolo : Solo s.txn) (a : Act) :
    UndoesNewest s a := by
  unfold UndoesNewest
  split
  · rename_i x
    split
    · rename_i z t hv
      intro sl hsl
      obtain ⟨c, p, todo, hc, rfl, hp⟩ := nextVisit_eq_some hv
      have hs := ho.inv.slot sl hsl
      obtain rfl : z = x := ho.visit_xid hsolo hc hp
      unfold Row.newest
      rw [hs.undo, pairwise_filterMap]
      refine hs.follows.imp_of_mem fun {a b} ha hb hf r hr r' hr' hw => ?_
      obtain ⟨-, hx, -⟩ := record?_eq_some hr
      obtain ⟨-, hx', -⟩ := record?_eq_some hr'
      rw [hx', (hs.heldLive (mem_updates.1 hb).1).xid_eq hsolo] at hw
      rw [hx, (hs.heldLive (mem_updates.1 ha).1).xid_eq hsolo,
        hf.owner_eq (hw ▸ hc) (not_committed_of_visit hp), hw]
    · trivial
  · trivial

theorem Orderly.undoesDeletes (ho : Orderly s) (hsolo : Solo s.txn) (a : Act) :
    UndoesDeletes s a := by
  unfold UndoesDeletes
  split
  · rename_i x
    split
    · rename_i z t hv
      intro c' _ sl hsl htouch _ hx
      obtain ⟨c, p, todo, hc, rfl, hp⟩ := nextVisit_eq_some hv
      exact .inl (ho.header_of_touched hsolo hc hp hsl htouch hx)
    · trivial
  · trivial

/-! ## Committed writes -/

/-- **One step of a history without savepoints.** -/
theorem Orderly.solo_step (ho : Orderly s) (hsolo : Solo s.txn) (hkeep : KeepsWrites s a)
    (h : Heap.step s a = some s') : Orderly s' ∧ Solo s'.txn := by
  obtain ⟨ht, hplain, hclear⟩ := hkeep
  have hrule : ObeysRule s a := by
    have : ∀ x i, a.target = some (x, i) → ∀ c ∈ s.running x, ∀ sl ∈ s.slots[i]?,
        affects (s.attempt a c sl) = true →
        sl.last.owner = x ∨ sees s.txn x c.handle.currentCommand sl.last = true := by
      intro x i ha c hrun sl hsl haff
      obtain ⟨hc, hp⟩ := running_eq_some.1 hrun
      exact ho.rule hc hp (mem_of_getElem? hsl) (ho.ready hc hp hclear h ha hsl haff)
    cases a with
    | update x i | delete x i => exact this x i rfl
    | _ => trivial
  refine ⟨ho.step ht hrule (ho.undoesNewest hsolo a) (ho.undoesDeletes hsolo a) h, ?_⟩
  rcases txn_step h with heq | ⟨b, rfl, hb⟩ | ⟨x, v, t', rfl, hv, heq⟩
  · exact heq ▸ hsolo
  · exact solo_step ho.inv.txn hsolo hplain.txn hb
  · obtain ⟨c, p, -, hc, rfl, -⟩ := nextVisit_eq_some hv
    exact heq ▸ hsolo.setClient (hsolo x c hc)

/-- Nothing of a committed transaction is undone. -/
theorem Orderly.live_of_committed (ho : Orderly s) (hsolo : Solo s.txn) (hmem : sl ∈ s.slots)
    (hw : w ∈ sl.writes) (hd : s.txn.clients.lookup w.stamp.owner = some d)
    (hcom : d.phase = .committed) : w ∈ sl.live := by
  have hs := ho.inv.slot sl hmem
  refine mem_live.2 ⟨hw, ?_⟩
  by_contra hu
  obtain ⟨d', hd', hg⟩ := hs.gone w hw (Bool.not_eq_false _ |>.mp hu)
  obtain rfl := Option.mem_unique hd hd'
  rcases hg with hr | hf
  · exact (ho.inv.txn.client _ d hd).disjoint _ hr ((hs.held w hw).own hsolo ho.inv.txn hd)
  · exact hf.ne_committed hcom

/-- The write `w` of a transaction that has committed, and the snapshot of `x`, taken later. -/
structure SeesCommit (t : Timeline.State) (w : Write) (x : ℕ) (c : Client) : Prop where
  running : t.clients.lookup x = some c ∧ c.phase = .running
  commit : ∃ d e, t.clients.lookup w.stamp.owner = some d ∧ d.phase = .committed ∧
    t.ended w.stamp.owner = some e ∧ e < c.view

theorem SeesCommit.owner_ne (h : SeesCommit t w x c) : w.stamp.owner ≠ x := by
  obtain ⟨⟨hc, hp⟩, d, e, hd, hcom, -⟩ := h
  exact ne_of_phase hc hd (by rw [hp, hcom]; nofun)

section Later

variable (ho : Orderly s) (hsolo : Solo s.txn) (hmem : sl ∈ s.slots) (hw : w ∈ sl.writes)
  (h : SeesCommit s.txn w x c)

include ho hsolo hmem hw h

theorem Orderly.sees_of_later : sees s.txn x k w.stamp = true := by
  have hne := h.owner_ne
  obtain ⟨⟨hc, -⟩, d, e, hd, hcom, he, hlt⟩ := h
  exact (sees_foreign hc hd hne).2
    ⟨hcom, ((ho.inv.slot sl hmem).held w hw).own hsolo ho.inv.txn hd, e, he, hlt⟩

/-- A later snapshot sees the row's insert, which is not its own. -/
theorem Orderly.insert_of_later :
    sl.inserted.owner ≠ x ∧ sees s.txn x k sl.inserted = true := by
  have hs := ho.inv.slot sl hmem
  have hseen := ho.sees_of_later (k := k) hsolo hmem hw h
  have hne := h.owner_ne
  obtain ⟨⟨hc, hp⟩, d, -, hd, hcom, -⟩ := h
  have hlive := ho.live_of_committed hsolo hmem hw hd hcom
  refine ⟨fun heq => hne (hs.own_of_ownInsert hc hp heq hlive).1, ?_⟩
  have hfol := hs.overInsert w hlive
  have halive : Alive s.txn { stamp := sl.inserted, change := .delete } := by
    cases hfol with
    | own heq _ =>
      have hd' : s.txn.clients.lookup sl.inserted.owner = some d := heq ▸ hd
      refine ⟨d, hd', ?_⟩
      rw [Holds, hcom]
      exact hs.heldInsert.own hsolo ho.inv.txn hd'
    | seen _ d' _ _ hd' hcom' hown' =>
      refine ⟨d', hd', ?_⟩
      rw [Holds, hcom']
      exact hown'
  exact hfol.sees (w := { stamp := sl.inserted, change := .delete }) ho.inv.txn hc hp (hs.held w hw)
    halive hseen

/-- A later snapshot reads the newest write that it sees. -/
theorem Orderly.read_later : sl.row.read (snapshotAt c k) s.txn.mgr.status =
    (sl.live.find? (sees s.txn x k ·.stamp)).elim (some sl.initial) Write.result := by
  have hs := ho.inv.slot sl hmem
  obtain ⟨hne, hins⟩ := ho.insert_of_later (k := k) hsolo hmem hw h
  obtain ⟨hc, hp⟩ := h.running
  rw [(ho.shape sl hmem).read_eq hs (ho.chain sl hmem) ho.inv.txn hc hp,
    hs.expected_eq ho.inv.txn hc hp hins]
  intro hcur
  rw [hs.xmin] at hcur
  exact absurd hcur (Bool.not_eq_true _ |>.mpr (foreign_xid ho.inv.txn hc hs.heldInsert hne).1)

/-- A committed delete has taken the row away. -/
theorem Orderly.read_deleted (hdel : w.change = .delete) :
    sl.row.read (snapshotAt c k) s.txn.mgr.status = none := by
  have hseen := ho.sees_of_later (k := k) hsolo hmem hw h
  obtain ⟨d, -, hd, hcom, -⟩ := h.commit
  have hhead := (ho.shape sl hmem).head_of_delete (ho.live_of_committed hsolo hmem hw hd hcom) hdel
  obtain ⟨rest, hrest⟩ := head?_eq_some_iff.1 hhead
  rw [ho.read_later hsolo hmem hw h, hrest, find?_cons, hseen]
  simp [Write.result, hdel]

/-- What is read was written by the committed transaction or after it. -/
theorem Orderly.read_at_or_after : ∃ newer u older, sl.live = newer ++ u :: older ∧
    w ∈ u :: older ∧ sees s.txn x k u.stamp = true ∧
    sl.row.read (snapshotAt c k) s.txn.mgr.status = u.result := by
  have hseen := ho.sees_of_later (k := k) hsolo hmem hw h
  obtain ⟨d, -, hd, hcom, -⟩ := h.commit
  have hlive := ho.live_of_committed hsolo hmem hw hd hcom
  rw [ho.read_later hsolo hmem hw h]
  cases hf : sl.live.find? (sees s.txn x k ·.stamp) with
  | none => exact absurd hseen (find?_eq_none.1 hf w hlive)
  | some u =>
    obtain ⟨hu, newer, older, hl, hnot⟩ := find?_eq_some_iff_append.1 hf
    refine ⟨newer, u, older, hl, ?_, hu, rfl⟩
    rw [hl] at hlive
    refine (mem_append.1 hlive).resolve_left fun hnew => ?_
    have := hnot w hnew
    simp [hseen] at this

end Later

/-- **No committed write is lost.** In every history without savepoints in which no statement meets
a delete that it fails to notice: a snapshot later than the commit of a delete finds no row, one
later than the commit of an update reads what that update or a newer write that it sees has left, no
statement changes a row whose stamp its snapshot does not see, and no rollback clears the stamp of a
committed transaction. -/
theorem committed_write_kept {s : State} (h : machine.Reach KeepsWrites s) :
    (∀ sl ∈ s.slots, ∀ w ∈ sl.writes, ∀ x c, SeesCommit s.txn w x c → ∀ k,
      (w.change = .delete → sl.row.read (snapshotAt c k) s.txn.mgr.status = none) ∧
      ∃ newer u older, sl.live = newer ++ u :: older ∧ w ∈ u :: older ∧
        sees s.txn x k u.stamp = true ∧ sl.row.read (snapshotAt c k) s.txn.mgr.status = u.result) ∧
    (∀ a s' x i c sl, ClearOfDelete s a → Heap.step s a = some s' → a.target = some (x, i) →
      s.running x = some c → s.slots[i]? = some sl →
      affects (s.attempt a c sl) = true →
      sl.row.header.xmax = 0 ∨ c.handle.snapshot.isCurrentXid sl.row.header.xmax = true ∨
        isCommittedBeforeSnapshot sl.row.header.xmax c.handle.snapshot s.txn.mgr.status = true) ∧
    ∀ x s', Heap.step s (.visit x) = some s' → ∀ (i : ℕ) (sl : Slot), s.slots[i]? = some sl →
      sl.row.header.xmax ≠ 0 → s.txn.mgr.status sl.row.header.xmax = .committed →
      s'.slots[i]?.map (·.row.header) = some sl.row.header := by
  obtain ⟨ho, hsolo⟩ : Orderly s ∧ Solo s.txn :=
    Machine.Reach.invariant (P := fun s => Orderly s ∧ Solo s.txn) ⟨orderly_init, solo_init⟩
      (fun s a s' _ hs hC hstep => hs.1.solo_step hs.2 hC hstep) h
  refine ⟨fun sl hmem w hw x c hlater k => ⟨ho.read_deleted hsolo hmem hw hlater,
    ho.read_at_or_after hsolo hmem hw hlater⟩, ?_, ?_⟩
  · intro a s' x i c sl hclear hstep ha hrun hsl haff
    obtain ⟨hc, hp⟩ := running_eq_some.1 hrun
    exact ho.stamp_seen hc hp (mem_of_getElem? hsl) (ho.ready hc hp hclear hstep ha hsl haff)
  · intro x s' hstep i sl hsl hx hcom
    have hmem := mem_of_getElem? hsl
    simp only [Heap.step] at hstep
    split at hstep <;> cases hstep
    rename_i v t hv
    obtain ⟨c, p, todo, hc, rfl, hp⟩ := nextVisit_eq_some hv
    have hlook := lookup_setClient s.txn x x { c with phase := p }
    rw [if_pos rfl] at hlook
    rw [hlook]
    dsimp only
    rw [(todo_of_visit hp).1, getElem?_map, hsl]
    exact congrArg some (ho.header_of_visit hsolo hc hp hmem hx hcom)

/-- A row that is updated and deleted by two transactions that commit, and a snapshot after that. -/
theorem deleted_row_stays_deleted : ∃ s sl w c, machine.Reach KeepsWrites s ∧ sl ∈ s.slots ∧
    w ∈ sl.writes ∧ w.change = .delete ∧ SeesCommit s.txn w 6 c ∧
    sl.row.read (snapshotAt c 0) s.txn.mgr.status = none := by
  obtain ⟨s, hs, hrun, hdel, hcom, hend⟩ := Machine.exists_reach_of_runIf (M := machine)
    (C := KeepsWrites)
    (p := fun s => (s.running 6).map (·.view) = some 14 ∧
      (s.slots.map fun sl => sl.writes.map fun w => (w.stamp.owner, w.isUpdate)) =
        [[(5, false), (4, true)]] ∧
      (s.txn.clients.lookup 5).map (·.phase) = some .committed ∧ s.txn.ended 5 = some 11)
    (committedRow ++ opening 4 .readCommitted ++
      [.update 4 0 .tid (fun _ => true) .val 5, .txn (.commit 4)] ++ opening 5 .readCommitted ++
      [.delete 5 0 (fun _ => true), .txn (.commit 5)] ++ opening 6 .readCommitted)
    (by decide)
  obtain ⟨c, hc, hview⟩ := Option.map_eq_some_iff.1 hrun
  obtain ⟨sl, rest, hsl, hwrites, -⟩ := map_eq_cons_iff.1 hdel
  obtain ⟨w, ws, hw, hwd, -⟩ := map_eq_cons_iff.1 hwrites
  obtain ⟨hwo, hwdel⟩ := Prod.mk.inj hwd
  obtain ⟨d, hd, hdcom⟩ := Option.map_eq_some_iff.1 hcom
  have hmem : sl ∈ s.slots := hsl ▸ mem_cons_self
  have hmem' : w ∈ sl.writes := hw ▸ mem_cons_self
  have hlater : SeesCommit s.txn w 6 c :=
    ⟨running_eq_some.1 hc, d, 11, hwo ▸ hd, hdcom, hwo ▸ hend, by omega⟩
  exact ⟨s, sl, w, c, hs, hmem, hmem', not_isUpdate_iff.1 hwdel, hlater,
    ((committed_write_kept hs).1 sl hmem w hmem' 6 c hlater 0).1 (not_isUpdate_iff.1 hwdel)⟩

/-- **A committed delete is lost.** The transaction 5 deletes a row, and 4 updates it over the
delete. Then 5 commits and 4 rolls back. -/
theorem committed_delete_lost : ∃ s, machine.Reach (fun s a => Timed s a ∧ Plain a) s ∧
    s.txn.mgr.status 5 = .committed ∧
    (s.slots.map fun sl => sl.writes.map fun w => (w.stamp.owner, w.isUpdate)) =
      [[(4, true), (5, false)]] ∧
    s.compare 6 0 = some [(some { id := 1, val := 10 }, none)] :=
  Machine.exists_reach_of_runIf
    (committedRow ++ opening 4 .repeatableRead ++ opening 5 .readCommitted ++
      [.delete 5 0 (fun _ => true), .update 4 0 .tid (fun _ => true) .val 5, .txn (.commit 5),
        .txn (.rollback 4), .visit 4, .visit 4, .txn (.abort 4)] ++ opening 6 .readCommitted)
    (by decide)

end UltraSql.Heap
