import UltraSql.Txn.SnapshotStability

/-!
# The vacuum horizon

`vacuum_horizon` returns the smaller of the oldest running XID in the commit log and the smallest
recorded floor. Vacuum removes tuples whose deleter committed below it, so the horizon must not
exceed the `xmin` of any live snapshot.

A floor is recorded only after its snapshot is built. In the window between the two, the snapshot
is protected by the commit log alone, that is by some XID at or below its `xmin` that is running.
The source relies on the snapshot's own XID, which is above `xmin` as soon as the snapshot has
found an older transaction running; once that transaction commits inside the window, nothing
holds the horizon back.

**Theorem (`vacuum_horizon_le_xmin`).** In every interleaving in which, whenever the floors are
read, each snapshot in its window is at or above its transaction's recorded floor or above an XID
that has been running since before the walk of the commit log began: the horizon returned is at
most the `xmin` of every live transaction's snapshot, and every tuple whose deleter committed
below the horizon is invisible to all of them.

**Counterexample (`horizon_overtakes_snapshot`).** Without that condition the horizon passes the
`xmin` of a snapshot that still sees a tuple deleted below it.
-/

namespace UltraSql.Sessions

variable {sh : Sharding} {n : ℕ}

/-- The transaction whose snapshot is built and whose floor is not yet recorded. -/
def Pc.windowTxn : Pc sh → Option Transaction
  | floor t => some t
  | _ => none

/-- The XIDs that were running when the walk of the commit log began. -/
def Pc.walkStart : Pc sh → Option (List ℕ)
  | walked _ start => some start
  | _ => none

/-- When the floors are read, a snapshot in its window is held by its transaction's older floor or
by an XID that has been running since the walk began. -/
def WindowsHeld (s : Program.State Shared (Thread sh) n) (a : Fin n × Act) : Prop :=
  a.2 = .readFloors →
    ∀ start ∈ (s.loc a.1).pc.walkStart, ∀ j, ∀ t ∈ (s.loc j).pc.windowTxn,
      (∃ f ∈ s.shared.mgr.snapshotXmins.lookup t.xid, f ≤ t.snapshot.xmin) ∨
        ∃ y ∈ start, y ≤ t.snapshot.xmin ∧ s.shared.mgr.clogInProgress y = true

instance (s : Program.State Shared (Thread sh) n) (a : Fin n × Act) : Decidable (WindowsHeld s a) :=
  inferInstanceAs (Decidable (_ → _))

theorem window_of_txn {pc : Pc sh} {t : Transaction} (ht : pc.txn? = some t) :
    pc.window = false ∨ pc.windowTxn = some t := by
  cases pc with
  | floor t' =>
    cases ht
    exact .inr rfl
  | _ => exact .inl rfl

variable {C : Program.State Shared (Thread sh) n → Fin n × Act → Prop}
  {s s' : Program.State Shared (Thread sh) n}

/-- The horizon computed from a finished walk is at most the `xmin` of every live snapshot. -/
theorem horizonOf_le_xmin (h : (machine sh n).Reach C s) {v : Fin n} {oldest : ℕ}
    {start : List ℕ} (hpc : (s.loc v).pc = .walked oldest start)
    (hc : WindowsHeld s (v, .readFloors)) {j : Fin n} {t : Transaction}
    (ht : (s.loc j).pc.txn? = some t) : s.shared.mgr.horizonOf oldest ≤ t.snapshot.xmin := by
  have hinv := reach_inv h
  have hwalk := (hinv.loc v).walk
  rw [hpc] at hwalk
  rcases window_of_txn ht with hw | hw
  · exact TransactionManager.horizonOf_le_floor oldest ((hinv.loc j).floor t ht hw)
  · rcases hc rfl start (by rw [hpc]; rfl) j t hw with ⟨f, hf, hle⟩ | ⟨y, hy, hle, hin⟩
    · exact (TransactionManager.horizonOf_le_floor oldest hf).trans hle
    · have hold := (hwalk y hy).2 (TransactionManager.clogInProgress_iff.1 hin)
      exact (TransactionManager.horizonOf_le_oldest _ _).trans (hold.trans hle)

/-- A tuple whose deleter committed below `h` is invisible to a live snapshot from `h` on. -/
theorem deleted_invisible (hr : (machine sh n).Reach C s) {j : Fin n} {t : Transaction}
    (ht : (s.loc j).pc.txn? = some t) {h : ℕ} (hle : h ≤ t.snapshot.xmin) {r : TupleHeader}
    (hmem : r ∈ s.shared.rows) (hx : r.xmax ≠ 0)
    (hcom : (s.shared.mgr.status r.xmax).isCommitted = true) (hlt : r.xmax < h) :
    isVisible r t.snapshot s.shared.mgr.status = .invisible := by
  have hinv := reach_inv hr
  have hl := hinv.loc j
  have hover : (s.loc j).pc.atEnd = false := by
    cases hpc : (s.loc j).pc <;> rw [hpc] at ht <;> first | rfl | cases ht
  -- The deleter is committed, so it is none of the live transaction's XIDs.
  have hforeign : r.xmax ∉ (s.loc j).family := by
    intro hfam
    rw [status_of_alive hl hover hfam] at hcom
    cases hcom
  have hown : ∀ x ∈ txnXids t, x ∈ (s.loc j).family := fun x hx =>
    hl.mentions x (xid_mem_of_txn? ht hx)
  have hmask := (hinv.shared.rows r hmem).1
  refine isVisible_of_deleted (by rw [hmask]) (by rw [hmask]) hx ?_ ?_ ?_ ?_
  · rw [← Bool.not_eq_true, Snapshot.isCurrentXid_iff]
    intro hcur
    have hfam := hown r.xmin (mem_txnXids.2 (by tauto))
    rcases hl.rows hover r hmem hfam with h0 | hdel
    · exact hx h0
    · exact hforeign hdel
  · rw [← Bool.not_eq_true, Snapshot.ownSubxidRolledBack_iff]
    exact fun h => hforeign (hown _ (mem_txnXids.2 (by tauto)))
  · rw [← Bool.not_eq_true, Snapshot.isCurrentXid_iff]
    exact fun h => hforeign (hown _ (mem_txnXids.2 (by tauto)))
  · rw [isCommittedBeforeSnapshot_iff]
    refine ⟨?_, hcom⟩
    rw [← Bool.not_eq_true, Snapshot.xidInProgress_iff]
    omega

/-- Only reading the floors returns a horizon. -/
theorem returning_step {s s' : Shared} {l l' : Thread sh} {a : Act} {h : ℕ}
    (hs : SectionStep s.clear l a s' l') (hret : s'.returning = some h) :
    ∃ oldest start, a = .readFloors ∧ l.pc = .walked oldest start ∧
      h = s.mgr.horizonOf oldest ∧ s' = { s with returning := some h } ∧ l'.pc.txn? = none := by
  cases hs with
  | @readFloors oldest start hpc =>
    cases hret
    exact ⟨oldest, start, rfl, hpc, rfl, rfl, rfl⟩
  | _ => cases hret

/-- **The vacuum horizon is safe** when every snapshot in its window is held as the floors are
read. -/
theorem vacuum_horizon_le_xmin (hr : (machine sh n).Reach WindowsHeld s) (h : ℕ)
    (hret : s.shared.returning = some h) (j : Fin n) (t : Transaction)
    (ht : (s.loc j).pc.txn? = some t) :
    h ≤ t.snapshot.xmin ∧
      ∀ r ∈ s.shared.rows, r.xmax ≠ 0 → (s.shared.mgr.status r.xmax).isCommitted = true →
        r.xmax < h → isVisible r t.snapshot s.shared.mgr.status = .invisible := by
  have hle : h ≤ t.snapshot.xmin := by
    cases hr with
    | init => cases hret
    | @step s₀ s a hr₀ hc hstep =>
      obtain ⟨v, a⟩ := a
      obtain ⟨shared, l', hl, rfl⟩ := machine_section hstep
      obtain ⟨oldest, start, rfl, hpc, rfl, -, hnone⟩ := returning_step hl hret
      by_cases hjv : j = v
      · subst hjv
        simp only [Function.update_self, hnone] at ht
        cases ht
      · simp only [Function.update_of_ne hjv] at ht
        exact horizonOf_le_xmin hr₀ hpc hc ht
  exact ⟨hle, fun r hmem hx hcom hlt => deleted_invisible hr ht hle hmem hx hcom hlt⟩

/-- The sections of `vacuum_horizon` on a commit log with one shard. -/
def horizonActs {n : ℕ} (i : Fin n) : List (Fin n × Act) :=
  [.walkStart, .walkShard, .walkDone, .readFloors].map (i, ·)

/-- The second transaction is in its window while the first one still runs: the horizon stays at
the first one's XID. -/
theorem vacuum_horizon_in_window :
    ∃ s, (machine oneShard 3).Reach WindowsHeld s ∧ s.shared.returning = some 3 ∧
      ∃ t, (s.loc 1).pc.txn? = some t ∧ 3 ≤ t.snapshot.xmin := by
  obtain ⟨s, hs, hret, hopen⟩ := Machine.exists_reach_of_runIf
    (M := machine oneShard 3) (C := WindowsHeld)
    (p := fun s => s.shared.returning = some 3 ∧ ((s.loc 1).pc.txn?).isSome = true)
    (beginActs 0 .readCommitted ++ (beginActs 1 .repeatableRead).take 5 ++ horizonActs 2)
    (by decide)
  obtain ⟨t, ht⟩ := Option.isSome_iff_exists.1 hopen
  exact ⟨s, hs, hret, t, ht, (vacuum_horizon_le_xmin hs 3 hret 1 t ht).1⟩

/-- **The horizon overtakes a snapshot.** A row is committed; a second transaction deletes it; a
third one takes its snapshot while the second runs; the second commits; the horizon is computed
before the third has recorded its floor. The horizon is the third transaction's own XID, above the
`xmin` of its snapshot, which still sees the row whose deleter committed below the horizon. -/
theorem horizon_overtakes_snapshot :
    ∃ s, (machine oneShard 4).Reach Machine.Always s ∧
      ∃ h ∈ s.shared.returning, ∃ t ∈ (s.loc 2).pc.txn?, t.snapshot.xmin < h ∧
        ∃ r ∈ s.shared.rows, r.xmax ≠ 0 ∧ (s.shared.mgr.status r.xmax).isCommitted = true ∧
          r.xmax < h ∧ isVisible r t.snapshot s.shared.mgr.status = .visible := by
  refine Machine.exists_reach_of_runIf
    (beginActs 0 .readCommitted ++ [(0, .insertRow ⟨1, 0, 0⟩), (0, .commit)] ++
      beginActs 1 .readCommitted ++ [(1, .deleteRow 0)] ++
      (beginActs 2 .repeatableRead).take 5 ++ [(1, .commit)] ++ horizonActs 3) ?_
  decide

end UltraSql.Sessions
