import UltraSql.Txn.SessionInv

/-!
# Snapshot stability

A snapshot should treat as in progress every XID that commits after the snapshot was taken. It
does so when, at its critical section, every XID below the `xmax` it loaded before has reached the
running set. `begin`, `begin_savepoint` and `rollback_to_savepoint` allocate an XID and enter it
in the running set in separate sections, so another thread can load `xmax` and read the running
set in between: the XID is then below `xmax` and not listed, and the snapshot takes it as
resolved before it has written anything.

**Theorem (`snapshot_stable`).** In every interleaving in which no snapshot is taken while an
allocated XID below its `xmax` is unpublished, every XID that commits after a snapshot is in
progress for it, or its own, and no open transaction sees a row of a foreign transaction that
committed after its snapshot.

**Counterexample (`late_publication_leaks`).** Without that condition a REPEATABLE READ
transaction sees a row that was committed after its snapshot.

Two things hold in every interleaving.

**Theorem (`seen_own_or_committed`).** No transaction sees a row of another one before the commit.

**Theorem (`final_status_stays`).** The commit log never takes back a commit or an abort.
-/

namespace UltraSql

open Function

/-- Two snapshots of one transaction that agree on which other transactions are resolved. -/
structure Snapshot.SameView (a b : Snapshot) : Prop where
  xmin : a.xmin = b.xmin
  xmax : a.xmax = b.xmax
  xip : a.xip = b.xip
  currentXid : a.currentXid = b.currentXid

theorem Snapshot.SameView.xidInProgress {a b : Snapshot} (h : a.SameView b) (x : ℕ) :
    a.xidInProgress x = b.xidInProgress x := by
  rw [Snapshot.xidInProgress, Snapshot.xidInProgress, h.xmin, h.xmax, h.xip]

theorem Snapshot.SameView.trans {a b c : Snapshot} (h : a.SameView b) (h' : b.SameView c) :
    a.SameView c :=
  ⟨h.xmin.trans h'.xmin, h.xmax.trans h'.xmax, h.xip.trans h'.xip,
    h.currentXid.trans h'.currentXid⟩

namespace Sessions

variable {sh : Sharding} {n : ℕ}

/-- The `xmax` that a thread has loaded for the snapshot it is building. -/
def Pc.loadedXmax : Pc sh → Option ℕ
  | xmax _ x => some x
  | _ => none

/-- When a snapshot reads the running set, every XID below its `xmax` is published. -/
def AllPublished (s : Program.State Shared (Thread sh) n) (a : Fin n × Act) : Prop :=
  a.2 = .snapshotSection →
    ∀ xmax ∈ (s.loc a.1).pc.loadedXmax, ∀ j, ∀ x ∈ (s.loc j).pc.pending, xmax ≤ x

instance (s : Program.State Shared (Thread sh) n) (a : Fin n × Act) :
    Decidable (AllPublished s a) :=
  inferInstanceAs (Decidable (_ → _))

/-- An XID that may still commit. -/
def Unresolved (m : TransactionManager) (x : ℕ) : Prop :=
  3 ≤ x ∧ (m.clog.lookup x = none ∨ m.clog.lookup x = some .inProgress)

theorem unresolved_of_step {m m' : TransactionManager} (h : ClogStep m m') {x : ℕ}
    (hx : Unresolved m' x) : Unresolved m x := by
  refine ⟨hx.1, ?_⟩
  rcases h x with he | ⟨hn, -⟩ | ⟨hin, -⟩
  · rw [← he]
    exact hx.2
  · exact .inl hn
  · exact .inr hin

variable {C : Program.State Shared (Thread sh) n → Fin n × Act → Prop}
  {s : Program.State Shared (Thread sh) n}

/-- Every XID handed out belongs to some transaction. -/
theorem allocated_mem_family (h : (machine sh n).Reach C s) {x : ℕ} (h3 : 3 ≤ x)
    (hx : x < s.shared.mgr.nextXid) : ∃ i, x ∈ (s.loc i).family := by
  revert x
  refine h.invariant (P := fun s => ∀ {x : ℕ}, 3 ≤ x → x < s.shared.mgr.nextXid →
    ∃ i, x ∈ (s.loc i).family) ?_ ?_
  · intro x h3 hx
    exact absurd hx (by simp [machine, Program.machine]; omega)
  · rintro s ⟨i, a⟩ s' hr ih - hstep x h3 hx
    obtain ⟨shared, l', hc, rfl⟩ := machine_section hstep
    by_cases hlt : x < s.shared.mgr.nextXid
    · obtain ⟨j, hj⟩ := ih h3 hlt
      by_cases hji : j = i
      · subst hji
        refine ⟨j, ?_⟩
        rcases family_step hc with ⟨hf, -⟩ | ⟨hf, -⟩ <;> simp [hf, hj]
      · exact ⟨j, by simpa [update_of_ne hji] using hj⟩
    · refine ⟨i, ?_⟩
      rcases family_step hc with ⟨-, hnext⟩ | ⟨hf, hnext⟩
      · exact absurd (hnext ▸ hx) hlt
      · simp only [Shared.clear_mgr] at hf hnext
        have hx' : x = s.shared.mgr.nextXid := by
          simp only at hx
          omega
        simp [hf, hx']

/-- What the running set has when a snapshot reads it. -/
theorem running_of_unresolved (h : (machine sh n).Reach C s) {i : Fin n} {xmax x : ℕ}
    (hc : AllPublished s (i, .snapshotSection)) (hpc : (s.loc i).pc.loadedXmax = some xmax)
    (hx : Unresolved s.shared.mgr x) : x ∈ s.shared.mgr.inProgress ∨ xmax ≤ x := by
  have hxmax : xmax ≤ s.shared.mgr.nextXid := by
    have hst := ((reach_inv h).loc i).status
    cases hp : (s.loc i).pc with
    | xmax k y =>
      rw [hp] at hpc hst
      cases hpc
      exact hst
    | _ =>
      rw [hp] at hpc
      cases hpc
  obtain ⟨h3, hst⟩ := hx
  rcases lt_or_ge x s.shared.mgr.nextXid with hlt | hge
  · obtain ⟨j, hj⟩ := allocated_mem_family h h3 hlt
    have hl := (reach_inv h).loc j
    by_cases hpend : (s.loc j).pc.pending = some x
    · exact .inr (hc rfl xmax hpc j x hpend)
    · rcases hst with hn | hin
      · obtain ⟨k, hk⟩ := hl.entered x hj hn
        rw [hk] at hpend
        exact absurd rfl hpend
      · exact .inl (hl.published x hj hpend hin)
  · exact .inr (hxmax.trans hge)

/-- A snapshot treats `x` as unresolved, or as its own. -/
def Covers (S : Snapshot) (x : ℕ) : Prop := S.xidInProgress x = true ∨ S.isCurrentXid x = true

theorem take_covers {k : SnapshotFor} {m : TransactionManager} {xmax x : ℕ}
    (hx : x ∈ m.inProgress ∨ xmax ≤ x) : Covers (k.take m xmax) x := by
  cases k <;> exact TransactionManager.snapshotSection_inProgress hx

/-- The snapshots taken so far cover what committed after them, and what still may. -/
def TakenOk (s : Shared) : Prop :=
  ∀ p ∈ s.taken, (∀ x ∈ p.2, Covers p.1 x) ∧ ∀ x, Unresolved s.mgr x → Covers p.1 x

/-- Whatever a section does other than take a snapshot or commit, it takes no snapshot. -/
theorem takenOk_step {s s' : Shared} {l l' : Thread sh} {a : Act} (hl : LocalInv s l)
    (h : SectionStep s l a s' l') (hs : TakenOk s)
    (hnew : ∀ k xmax, l.pc = .xmax k xmax → a = .snapshotSection →
      ∀ x, Unresolved s.mgr x → Covers (k.take s.mgr xmax) x) : TakenOk s' := by
  have hclog := clogStep_step hl h
  have hold : ∀ p ∈ s.taken, ∀ x, Unresolved s'.mgr x → Covers p.1 x := fun p hp x hx =>
    (hs p hp).2 x (unresolved_of_step hclog hx)
  cases h with
  | @snapshotSection k xmax hpc =>
    exact List.forall_mem_cons.2 ⟨⟨nofun, hnew k xmax hpc rfl⟩, hs⟩
  | @commit t m hpc hend =>
    have hran := hl.range
    have hmen := hl.mentions
    rw [hpc] at hmen
    intro p hp
    obtain ⟨q, hq, rfl⟩ := List.mem_map.1 hp
    refine ⟨fun x hx => ?_, hold q hq⟩
    rcases List.mem_append.1 hx with hx | hx
    · obtain ⟨hfam, hin⟩ := List.mem_filter.1 hx
      have hx' : x ∈ txnXids t := by
        rcases List.mem_cons.1 hfam with rfl | hfam
        · exact xid_mem_txnXids
        · exact mem_txnXids_of_committed hfam
      exact (hs q hq).2 x ⟨(hran x (hmen x hx')).1,
        .inr (TransactionManager.clogInProgress_iff.1 hin)⟩
    · exact (hs q hq).1 x hx
  | _ => exact fun p hp => ⟨(hs p hp).1, hold p hp⟩

theorem takenOk_reach (h : (machine sh n).Reach AllPublished s) : TakenOk s.shared := by
  refine h.invariant (P := fun s => TakenOk s.shared) (fun p hp => by cases hp) ?_
  rintro s ⟨i, a⟩ s' hr hs hc hstep
  obtain ⟨shared, l', hl, rfl⟩ := machine_section hstep
  refine takenOk_step ((reach_inv hr).loc i).clear hl hs ?_
  rintro k xmax hpc rfl x hx
  exact take_covers (running_of_unresolved hr hc (by rw [hpc]; rfl) hx)

/-! ## The snapshot of an open transaction is one of those taken -/

theorem sameView_applyOwnSubxids (t : Transaction) :
    t.applyOwnSubxids.snapshot.SameView t.snapshot := ⟨rfl, rfl, rfl, rfl⟩

/-- A section either keeps the view of the transaction's snapshot or has just taken it. -/
theorem view_step {s s' : Shared} {l l' : Thread sh} {a : Act} (h : SectionStep s l a s' l')
    {t' : Transaction} (ht' : l'.pc.txn? = some t') :
    (∃ t, l.pc.txn? = some t ∧ t'.snapshot.SameView t.snapshot) ∨
      ∃ k xmax, l.pc = .xmax k xmax ∧ t'.snapshot = k.take s.mgr xmax ∧
        s'.taken = (k.take s.mgr xmax, []) :: s.taken := by
  have hsame : ∀ t, l.pc.txn? = some t → t'.snapshot = t.snapshot →
      (∃ t, l.pc.txn? = some t ∧ t'.snapshot.SameView t.snapshot) ∨
        ∃ k xmax, l.pc = .xmax k xmax ∧ t'.snapshot = k.take s.mgr xmax ∧
          s'.taken = (k.take s.mgr xmax, []) :: s.taken := fun t ht he =>
    .inl ⟨t, ht, he ▸ ⟨rfl, rfl, rfl, rfl⟩⟩
  cases h with
  | @snapshotSection k xmax hpc =>
    cases k with
    | begin | refresh =>
      cases ht'
      exact .inr ⟨_, _, hpc, rfl, rfl⟩
    | statement t b =>
      cases ht'
      exact hsame _ (by rw [hpc]; rfl) rfl
  | @pushSavepoint t name x hpc =>
    cases ht'
    exact .inl ⟨t, by rw [hpc]; rfl, sameView_applyOwnSubxids _⟩
  | @refreshFrozen t hpc =>
    cases ht'
    exact .inl ⟨t, by rw [hpc]; rfl, ⟨rfl, rfl, rfl, rfl⟩⟩
  | @rollbackDone t hpc =>
    cases ht'
    exact .inl ⟨t, by rw [hpc]; rfl, sameView_applyOwnSubxids _⟩
  | @release t t₁ name sub hpc hrel =>
    cases ht'
    unfold TransactionManager.releaseSavepoint at hrel
    split at hrel <;> cases hrel
    exact .inl ⟨t, by rw [hpc]; rfl, sameView_applyOwnSubxids _⟩
  | allocBegin | commit | abort | forget | walkStart | walkShard | walkDone | readFloors =>
    cases ht'
  | loadXmaxBegin => cases ht'
  | clogInsert hpc | publish hpc => exact hsame t' (by rw [hpc]; exact ht') rfl
  | insertRow hpc | deleteRow hpc => exact hsame t' ht' rfl
  | @restamp t name x o st hpc hroll =>
    cases ht'
    exact hsame t (by rw [hpc]; rfl) rfl
  | @loadXmaxRefresh t hpc =>
    cases ht'
    exact hsame t (by rw [hpc]; rfl) rfl
  | allocSavepoint hpc | allocRollback hpc | loadXmaxStatement hpc | recordFloor hpc
  | clogAbort hpc | clogSkip hpc | unpublish hpc =>
    cases ht'
    exact hsame _ (by rw [hpc]; rfl) rfl

theorem taken_mono {s s' : Shared} {l l' : Thread sh} {a : Act} (h : SectionStep s l a s' l')
    {p : Snapshot × List ℕ} (hp : p ∈ s.taken) : ∃ q ∈ s'.taken, q.1 = p.1 := by
  cases h with
  | snapshotSection => exact ⟨p, List.mem_cons_of_mem _ hp, rfl⟩
  | commit => exact ⟨_, List.mem_map.2 ⟨p, hp, rfl⟩, rfl⟩
  | _ => exact ⟨p, hp, rfl⟩

theorem view_taken (h : (machine sh n).Reach C s) {i : Fin n} {t : Transaction}
    (ht : (s.loc i).pc.txn? = some t) : ∃ p ∈ s.shared.taken, t.snapshot.SameView p.1 := by
  revert i t
  refine h.invariant (P := fun s => ∀ {i : Fin n} {t : Transaction},
    (s.loc i).pc.txn? = some t → ∃ p ∈ s.shared.taken, t.snapshot.SameView p.1) ?_ ?_
  · intro i t ht
    cases ht
  · rintro s ⟨i, a⟩ s' hr ih - hstep j t ht
    obtain ⟨shared, l', hl, rfl⟩ := machine_section hstep
    have hkeep : ∀ t₀ : Transaction, ∀ k, (s.loc k).pc.txn? = some t₀ →
        t.snapshot.SameView t₀.snapshot → ∃ p ∈ shared.taken, t.snapshot.SameView p.1 := by
      intro t₀ k ht₀ hview
      obtain ⟨p, hp, hv⟩ := ih ht₀
      obtain ⟨q, hq, he⟩ := taken_mono hl hp
      exact ⟨q, hq, he ▸ Snapshot.SameView.trans hview hv⟩
    by_cases hji : j = i
    · subst hji
      simp only [update_self] at ht
      rcases view_step hl ht with ⟨t₀, ht₀, hview⟩ | ⟨k, xmax, -, hsnap, htaken⟩
      · exact hkeep t₀ j ht₀ hview
      · exact ⟨_, htaken ▸ List.mem_cons_self, hsnap ▸ ⟨rfl, rfl, rfl, rfl⟩⟩
    · simp only [update_of_ne hji] at ht
      exact hkeep t j ht ⟨rfl, rfl, rfl, rfl⟩

/-! ## Stability -/

/-- What a snapshot owes to the XIDs in `later`, which committed after it: an open transaction
that holds it, with whatever own subtransactions by now, sees none of their rows. -/
theorem not_seen_of_covers {S S' : Snapshot} {x : ℕ} {r : TupleHeader} {oracle : Oracle}
    (hview : S'.SameView S) (hcov : Covers S x) (hown : S.isCurrentXid x = false)
    (hown' : S'.isCurrentXid x = false) (hr : r.xmin = x) (hf : r.infomask.frozen = false) :
    (isVisible r S' oracle).isSeen = false := by
  by_contra hseen
  rw [Bool.not_eq_false] at hseen
  rcases committedBefore_of_seen hseen with h | h | h
  · rw [hf] at h
    cases h
  · rw [hr, hown'] at h
    cases h
  · rw [isCommittedBeforeSnapshot_iff, hr, hview.xidInProgress] at h
    rcases hcov with hc | hc
    · rw [hc] at h
      cases h.1
    · rw [hown] at hc
      cases hc

/-- **Snapshot stability.** When no snapshot is taken while an allocated XID below its `xmax` is
unpublished, every XID that commits after a snapshot is in progress for it, or its own. The
snapshot of every open transaction is one of those taken, and under it the transaction sees no row
of a foreign XID that committed after it. -/
theorem snapshot_stable (h : (machine sh n).Reach AllPublished s) :
    (∀ p ∈ s.shared.taken, ∀ x ∈ p.2,
      p.1.xidInProgress x = true ∨ p.1.isCurrentXid x = true) ∧
    ∀ i t, (s.loc i).pc.txn? = some t →
      (∃ p ∈ s.shared.taken, t.snapshot.SameView p.1) ∧
      ∀ p ∈ s.shared.taken, t.snapshot.SameView p.1 → ∀ x ∈ p.2,
        p.1.isCurrentXid x = false → t.snapshot.isCurrentXid x = false →
        ∀ r : TupleHeader, r.xmin = x → r.infomask.frozen = false →
          (isVisible r t.snapshot s.shared.mgr.status).isSeen = false := by
  have htaken := takenOk_reach h
  refine ⟨fun p hp x hx => (htaken p hp).1 x hx, fun i t ht => ⟨view_taken h ht, ?_⟩⟩
  intro p hp hview x hx hown hown' r hr hf
  exact not_seen_of_covers hview ((htaken p hp).1 x hx) hown hown' hr hf

/-- A commit log with one shard. -/
def oneShard : Sharding := { count := 1, shardOf := fun _ => Fin.last 0 }

/-- The sections of `begin` up to the first statement. -/
def beginActs {n : ℕ} (i : Fin n) (isolation : IsolationLevel) : List (Fin n × Act) :=
  [.allocBegin isolation, .clogInsert, .publish, .loadXmaxBegin, .snapshotSection,
    .recordFloor].map (i, ·)

/-- A run that meets the condition: the second transaction begins while the first one runs, and
the first one commits a row afterwards. -/
theorem snapshot_stable_run :
    ∃ s, (machine oneShard 2).Reach AllPublished s ∧ (∃ p ∈ s.shared.taken, p.2 = [3]) ∧
      ∀ p ∈ s.shared.taken, ∀ x ∈ p.2,
        p.1.xidInProgress x = true ∨ p.1.isCurrentXid x = true := by
  obtain ⟨s, hs, hp⟩ := Machine.exists_reach_of_runIf
    (M := machine oneShard 2) (C := AllPublished) (p := fun s => ∃ p ∈ s.shared.taken, p.2 = [3])
    (beginActs 0 .readCommitted ++ beginActs 1 .repeatableRead ++
      [(0, .insertRow ⟨1, 0, 0⟩), (0, .commit)]) (by decide)
  exact ⟨s, hs, hp, (snapshot_stable hs).1⟩

/-- **A late publication leaks a later commit.** The first transaction has allocated its XID when
the second one, at REPEATABLE READ, takes its snapshot; it then enters the running set, inserts a
row and commits. The snapshot takes the XID as resolved, and the second transaction sees the row. -/
theorem late_publication_leaks :
    ∃ s, (machine oneShard 2).Reach Machine.Always s ∧
      ∃ p ∈ s.shared.taken, ∃ x ∈ p.2,
        p.1.xidInProgress x = false ∧ p.1.isCurrentXid x = false ∧
        ∃ r ∈ s.shared.rows, r.xmin = x ∧ isVisible r p.1 s.shared.mgr.status = .visible := by
  refine Machine.exists_reach_of_runIf
    ((0, .allocBegin .readCommitted) :: beginActs 1 .repeatableRead ++
      (beginActs 0 .readCommitted).tail ++ [(0, .insertRow ⟨1, 0, 0⟩), (0, .commit)]) ?_
  decide

/-! ## Reads of uncommitted rows -/

/-- **No dirty reads.** In every interleaving, whatever its isolation level, what a transaction
sees is its own row or that of a transaction that has ended, with its XID committed. -/
theorem seen_own_or_committed (h : (machine sh n).Reach C s) {i : Fin n} {t : Transaction}
    (ht : (s.loc i).pc.txn? = some t) {r : TupleHeader} (hr : r ∈ s.shared.rows)
    (hv : (isVisible r t.snapshot s.shared.mgr.status).isSeen = true) :
    r.xmin ∈ (s.loc i).family ∨ ∃ j, r.xmin ∈ (s.loc j).family ∧ (s.loc j).pc.atEnd = true ∧
      (s.shared.mgr.status r.xmin).isCommitted = true := by
  have hi := reach_inv h
  obtain ⟨hmask, hmin, hnext⟩ := hi.shared.rows r hr
  rcases committedBefore_of_seen hv with hf | hown | hcom
  · simp [hmask] at hf
  · refine .inl ((hi.loc i).mentions _ (xid_mem_of_txn? ht (mem_txnXids.2 ?_)))
    rw [Snapshot.isCurrentXid_iff] at hown
    tauto
  · have hst := (isCommittedBeforeSnapshot_iff.1 hcom).2
    obtain ⟨j, hj⟩ := allocated_mem_family h hmin hnext
    refine .inr ⟨j, hj, ?_, hst⟩
    by_contra hend
    rw [status_of_alive (hi.loc j) (Bool.eq_false_of_not_eq_true hend) hj] at hst
    cases hst

/-- The second transaction begins after the first has committed, and sees its row. -/
theorem committed_row_is_seen : ∃ s, (machine oneShard 2).Reach Machine.Always s ∧
    ∃ t ∈ (s.loc 1).pc.txn?, ∃ r ∈ s.shared.rows,
      (isVisible r t.snapshot s.shared.mgr.status).isSeen = true ∧
      ∃ j, r.xmin ∈ (s.loc j).family ∧ (s.loc j).pc.atEnd = true ∧
        (s.shared.mgr.status r.xmin).isCommitted = true := by
  obtain ⟨s, hs, t, ht, r, hr, hv, hne⟩ := Machine.exists_reach_of_runIf
    (M := machine oneShard 2) (C := Machine.Always) (p := fun s => ∃ t ∈ (s.loc 1).pc.txn?,
      ∃ r ∈ s.shared.rows, (isVisible r t.snapshot s.shared.mgr.status).isSeen = true ∧
        r.xmin ∉ (s.loc 1).family)
    (beginActs 0 .readCommitted ++ [(0, .insertRow ⟨1, 0, 0⟩), (0, .commit)] ++
      beginActs 1 .serializable) (by decide)
  exact ⟨s, hs, t, ht, r, hr, hv, (seen_own_or_committed hs ht hr hv).resolve_left hne⟩

/-! ## The ends of transactions -/

/-- **The commit log is final.** No interleaving takes an XID out of an end it has reached. -/
theorem final_status_stays {s' : Program.State Shared (Thread sh) n} {x : ℕ} {st : XidStatus}
    (h : (machine sh n).Reach C s) (h' : ((machine sh n).startAt s).Reach C s')
    (hx : s.shared.mgr.clog.lookup x = some st) (hst : st ≠ .inProgress) :
    s'.shared.mgr.clog.lookup x = some st := by
  refine (h'.invariant (P := fun s => (machine sh n).Reach C s ∧
    s.shared.mgr.clog.lookup x = some st) ⟨h, hx⟩ ?_).2
  rintro s₁ ⟨i, a⟩ s₂ - ⟨hr, hl⟩ hc hstep
  refine ⟨.step _ hr hc hstep, ?_⟩
  obtain ⟨shared, l, hsec, rfl⟩ := machine_section hstep
  rcases clogStep_step ((reach_inv hr).loc i).clear hsec x with he | ⟨hn, -⟩ | ⟨hin, -⟩
  · exact he.trans hl
  · cases hl.symm.trans hn
  · exact absurd (Option.some.inj (hl.symm.trans hin)) hst

/-- An abort stays through the steps after it. -/
theorem abort_stays : ∃ s s', (machine oneShard 1).Reach Machine.Always s ∧
    ((machine oneShard 1).startAt s).Reach Machine.Always s' ∧
    s'.shared.mgr.clog.lookup 3 = some .aborted := by
  obtain ⟨s, hs, hx, hsome⟩ := Machine.exists_reach_of_runIf (M := machine oneShard 1)
    (C := Machine.Always) (p := fun s => s.shared.mgr.clog.lookup 3 = some .aborted ∧
      ((machine oneShard 1).step s (0, .forget)).isSome)
    (beginActs 0 .readCommitted ++ [(0, .abort)]) (by decide)
  obtain ⟨s', hstep⟩ := Option.isSome_iff_exists.1 hsome
  have h' : ((machine oneShard 1).startAt s).Reach Machine.Always s' := .step _ .init trivial hstep
  exact ⟨s, s', hs, h', final_status_stays hs h' hx (by decide)⟩

end Sessions

end UltraSql
