import UltraSql.Recovery.Protocol

/-!
# What keeps commit status

The invariant of the threads of `Protocol`, in the three parts of the interference rule.

* `SharedInv` relates the commit log to the records: a committed XID that any record carries has a
  durable Commit record, an aborted one has none, and the XIDs of recycled records have their
  status in the snapshot on disk. A state file's family is decided only by its own decision
  record, which is retained.
* `LocalInv` is what a thread knows at each point: its transaction is open and in nobody else's
  family, a prepared transaction that it has validated is undecided, and a checkpoint knows which
  statuses its snapshot covers.
* `Separate` keeps two threads apart: they own different XIDs, resolve different prepared
  transactions, and are not both in the critical part of a checkpoint.

The conditions on a run are in `Safe`. The critical part of a checkpoint starts when `export_clog`
passes an XID by and ends when the first-LSN map is pruned of it. A flip in between is in neither
the snapshot nor the floor.
-/

namespace UltraSql.Recovery

variable {s s' : Shared} {pc pc' k : Pc} {a : Act} {t p q : Family} {x y g lsn n : ℕ} {r : Rec}

/-! ## What the log says -/

def Rec.Commits (x : ℕ) : Rec → Prop
  | commit p subs => x ∈ p :: subs
  | _ => False

def Rec.Aborts (x : ℕ) : Rec → Prop
  | abort p _ => x = p
  | _ => False

def Logged (w : Wal Rec) (x : ℕ) : Prop := ∃ (l : ℕ) (r : Rec), w.log[l]? = some r ∧ x ∈ r.names

def Committed (w : Wal Rec) (x : ℕ) : Prop :=
  ∃ (l : ℕ) (r : Rec), w.log[l]? = some r ∧ r.Commits x

def Aborted (w : Wal Rec) (x : ℕ) : Prop := ∃ (l : ℕ) (r : Rec), w.log[l]? = some r ∧ r.Aborts x

theorem Rec.Commits.named (h : r.Commits x) : x ∈ r.names := by
  cases r <;> first | exact h | exact h.elim

theorem Rec.Aborts.named (h : r.Aborts x) : x ∈ r.names := by
  cases r with
  | abort p subs => exact List.mem_singleton.2 h
  | data | commit | other => exact h.elim

theorem Committed.logged {w : Wal Rec} (h : Committed w x) : Logged w x :=
  let ⟨l, r, hr, hx⟩ := h
  ⟨l, r, hr, hx.named⟩

theorem Aborted.logged {w : Wal Rec} (h : Aborted w x) : Logged w x :=
  let ⟨l, r, hr, hx⟩ := h
  ⟨l, r, hr, hx.named⟩

theorem decision_committed : r.decision x = some .committed ↔ r.Commits x := by
  cases r <;> simp only [Rec.decision, Rec.Commits, reduceCtorEq, Option.ite_none_right_eq_some,
    Option.some.injEq, and_true, and_false]

theorem decision_aborted : r.decision x = some .aborted ↔ r.Aborts x := by
  cases r <;> simp [Rec.decision, Rec.Aborts]

/-! ## The condition on runs -/

/-- A record below `n` carries the XID. -/
def NamedBelow (w : Wal Rec) (n x : ℕ) : Prop := ∃ r ∈ w.log.take n, x ∈ r.names

instance (w : Wal Rec) (n x : ℕ) : Decidable (NamedBelow w n x) :=
  inferInstanceAs (Decidable (∃ r ∈ w.log.take n, x ∈ r.names))

/-- The XIDs whose status a section changes. -/
def flipped : Pc → Act → List ℕ
  | .active _ _, .rollbackTo xs => xs
  | .active t false, .commit => t.members
  | .active t _, .abort _ => t.members
  | .committed t _, .next => t.members
  | .waiting _ p _ _, .next => p.members
  | _, _ => []

/-- The `redo_from` of a checkpoint that has passed the XID by in `export_clog` and not yet reached
it in the first-LSN map. -/
def exposure (x : ℕ) : Pc → Option ℕ
  | .exporting redo _ _ todo _ => if x ∈ todo then none else some redo
  | .exported redo _ | .written redo true => some redo
  | .pruning redo todo _ true => if x ∈ todo then some redo else none
  | _ => none

/-- A checkpoint relies on the status of the XID: it has passed the XID by, and a record below its
`redo_from` carries the XID. -/
def Exposed (w : Wal Rec) (x : ℕ) (pc : Pc) : Prop := ∃ redo ∈ exposure x pc, NamedBelow w redo x

instance (w : Wal Rec) (x : ℕ) (pc : Pc) : Decidable (Exposed w x pc) :=
  inferInstanceAs (Decidable (∃ redo ∈ exposure x pc, NamedBelow w redo x))

/-- The checkpoint is between the start of `export_clog` and the end of `truncate_below`. -/
def Pc.inWindow : Pc → Bool
  | .exporting .. | .exported .. | .written _ true | .pruning _ _ _ true | .pruned .. => true
  | _ => false

def Act.startsCheckpoint : Act → Bool
  | .checkpoint _ _ => true
  | _ => false

/-- What a step requires of another thread: the XIDs it flips are not exposed, and checkpoints do
not overlap. -/
def SafeBeside (s : Shared) (pc : Pc) (a : Act) (k : Pc) : Prop :=
  (∀ x ∈ flipped pc a, ¬ Exposed s.wal x k) ∧ (a.startsCheckpoint = true → k.inWindow = false)

instance (s : Shared) (pc : Pc) (a : Act) (k : Pc) : Decidable (SafeBeside s pc a k) :=
  inferInstanceAs (Decidable (_ ∧ _))

/-- The `redo_from` of a checkpoint whose pruning starts. -/
def pruneStart : Pc → Act → Option ℕ
  | .written redo true, .next => some redo
  | _, _ => none

/-- The floor that a checkpoint recycles up to. -/
def recycleFloor (w : Wal Rec) : Pc → Act → Option ℕ
  | .pruned redo oldest, .recycle bound =>
    some (w.truncateBelow (recycleTarget redo oldest bound)).floor
  | _, _ => none

/-- What a step requires of the thread itself. When pruning starts, the first LSN of every running
XID with a record below `redo_from` is noted, and not above that record. When segments are
recycled, no decision record is among them whose state file is still there. -/
def SafeStep (s : Shared) (pc : Pc) (a : Act) : Prop :=
  (∀ redo ∈ pruneStart pc a, ∀ l < redo, ∀ r ∈ s.wal.log[l]?,
    s.mgr.clog.lookup r.header = some .inProgress →
      ∃ lsn ∈ s.firstLsn.lookup r.header, lsn ≤ l) ∧
  ∀ floor ∈ recycleFloor s.wal pc a, ∀ p ∈ s.files.values, ∀ r ∈ s.wal.log.take floor,
    r.decision p.xid = none

instance (s : Shared) (pc : Pc) (a : Act) : Decidable (SafeStep s pc a) :=
  inferInstanceAs (Decidable (_ ∧ _))

/-- **The condition.** A crash finds no state file that is not completely written. -/
def Safe {n : ℕ} (s : Program.State Shared Pc n) : Fin n × Act ⊕ ℕ → Prop
  | .inl (i, a) => SafeStep s.shared (s.loc i) a ∧
      ∀ j, j ≠ i → SafeBeside s.shared (s.loc i) a (s.loc j)
  | .inr _ => s.shared.torn.keys = []

instance {n : ℕ} : DecidableRel (Safe (n := n)) := fun s a =>
  match a with
  | .inl (i, a) => inferInstanceAs (Decidable (SafeStep s.shared (s.loc i) a ∧
      ∀ j, j ≠ i → SafeBeside s.shared (s.loc i) a (s.loc j)))
  | .inr _ => inferInstanceAs (Decidable (s.shared.torn.keys = []))

/-! ## The invariant -/

/-- The transaction is running and undecided. -/
def Open (s : Shared) (t : Family) : Prop :=
  ∀ x ∈ t.members, s.mgr.clog.lookup x = some .inProgress ∧ ¬ Committed s.wal x ∧ ¬ Aborted s.wal x

/-- The transaction is decided in the commit log. -/
def Decided (s : Shared) (p : Family) : Prop :=
  ∃ st, st ≠ .inProgress ∧ ∀ x ∈ p.members, s.mgr.clog.lookup x = some st

/-- No prepared transaction or state file has a member of this family. -/
def Apart (s : Shared) (t : Family) : Prop :=
  ∀ g p, s.files.lookup g = some p ∨ s.prepared.lookup g = some p →
    ∀ x ∈ t.members, x ∉ p.members

structure SharedInv (s : Shared) : Prop where
  next_normal : 3 ≤ s.mgr.nextXid
  bounded : TransactionManager.Bounded s.mgr
  logged_known : ∀ x, Logged s.wal x → s.mgr.clog.lookup x ≠ none
  not_frozen : ∀ x, s.mgr.clog.lookup x ≠ some .frozen
  committed_durable : ∀ x, s.mgr.clog.lookup x = some .committed → Logged s.wal x →
    ∃ (l : ℕ) (r : Rec), l < s.wal.durable ∧ s.wal.log[l]? = some r ∧ r.Commits x
  aborted_not_committed : ∀ x, s.mgr.clog.lookup x = some .aborted → ¬ Committed s.wal x
  one_decision : ∀ x, Aborted s.wal x → ¬ Committed s.wal x
  commit_family : ∀ (l : ℕ) p subs, s.wal.log[l]? = some (.commit p subs) →
    (∀ x ∈ p :: subs, s.mgr.clog.lookup x = some .inProgress) ∨
      ∀ x ∈ p :: subs, s.mgr.clog.lookup x = some .committed
  recovered_le : s.recoveredLsn ≤ s.wal.log.length
  recovered_committed : ∀ (l : ℕ) r x, l < s.recoveredLsn → s.wal.log[l]? = some r → r.Commits x →
    s.mgr.clog.lookup x = some .committed
  recovered_aborted : ∀ (l : ℕ) r x, l < s.recoveredLsn → s.wal.log[l]? = some r → r.Aborts x →
    s.mgr.clog.lookup x = some .aborted
  snapshot_lsn : ∀ sn ∈ s.snapshot, sn.lsn < s.wal.durable
  snapshot_clog : ∀ sn ∈ s.snapshot, ∀ e ∈ sn.entries,
    s.mgr.clog.lookup e.1 = some e.2 ∧ e.2 ≠ .inProgress
  recycled : ∀ (l : ℕ) r, l < s.wal.floor → s.wal.log[l]? = some r → ∀ x ∈ r.names,
    ∃ sn ∈ s.snapshot, ∃ e ∈ sn.entries, e.1 = x
  files_known : ∀ g p, s.files.lookup g = some p → ∀ x ∈ p.members, s.mgr.clog.lookup x ≠ none
  files_disjoint : ∀ g g' p p', s.files.lookup g = some p → s.files.lookup g' = some p' →
    g ≠ g' → ∀ x ∈ p.members, x ∉ p'.members
  files_own : ∀ g p, s.files.lookup g = some p → ∀ x ∈ p.members, ∀ (l : ℕ) r,
    s.wal.log[l]? = some r → r.Commits x ∨ r.Aborts x →
      s.wal.floor ≤ l ∧ ∃ d : Decision, r = d.record p
  files_decided : ∀ g p, s.files.lookup g = some p → ∀ x ∈ p.members, ∀ st,
    s.mgr.clog.lookup x = some st → st ≠ .inProgress →
      ∃ (l : ℕ) (d : Decision), l < s.wal.durable ∧ s.wal.log[l]? = some (d.record p) ∧
        d.status = st
  torn_free : ∀ g p, s.torn.lookup g = some p → s.files.lookup g = none
  prepared_known : ∀ g p, s.prepared.lookup g = some p → ∀ x ∈ p.members,
    s.mgr.clog.lookup x ≠ none
  prepared_disjoint : ∀ g g' p p', s.prepared.lookup g = some p →
    s.prepared.lookup g' = some p' → g ≠ g' → ∀ x ∈ p.members, x ∉ p'.members
  prepared_state : ∀ g p, s.prepared.lookup g = some p → g ∉ s.resolving → Open s p ∨ Decided s p
  prepared_file : ∀ g p, s.prepared.lookup g = some p → s.files.lookup g = some p ∨ Decided s p

/-- The statuses that are in `entries` or still to be visited cover the XIDs of the records below
`redo` and of the recycled ones. -/
def Covers (s : Shared) (redo : ℕ) (todo : List ℕ) (entries : List (ℕ × XidStatus)) : Prop :=
  redo ≤ s.wal.durable ∧
  ∀ (l : ℕ) r, l < redo ∨ l < s.wal.floor → s.wal.log[l]? = some r → ∀ x ∈ r.names, ∀ st,
    s.mgr.clog.lookup x = some st → st ≠ .inProgress → x ∈ todo ∨ ∃ e ∈ entries, e.1 = x

/-- The entries agree with the commit log. -/
def Exact (s : Shared) (entries : List (ℕ × XidStatus)) : Prop :=
  ∀ e ∈ entries, s.mgr.clog.lookup e.1 = some e.2 ∧ e.2 ≠ .inProgress

/-- The snapshot on disk has all XIDs of the record. -/
def InSnapshot (s : Shared) (r : Rec) : Prop :=
  ∀ x ∈ r.names, ∃ sn ∈ s.snapshot, ∃ e ∈ sn.entries, e.1 = x

/-- What a thread knows at each point of its call. -/
def LocalInv (s : Shared) : Pc → Prop
  | .active t wrote => Open s t ∧ Apart s t ∧
      (wrote = false → ∀ x ∈ t.members, ¬ Logged s.wal x)
  | .recording t _ _ | .preparing t _ | .creating t _ => Open s t ∧ Apart s t
  | .writing t g => Open s t ∧ Apart s t ∧ s.torn.lookup g = some t
  | .committing t lsn | .committed t lsn => Apart s t ∧
      s.wal.log[lsn]? = some (.commit t.xid t.subs) ∧
      ∀ x ∈ t.members, s.mgr.clog.lookup x = some .inProgress ∧ ¬ Aborted s.wal x ∧
        ∀ (l : ℕ) r, s.wal.log[l]? = some r → r.Commits x → r = .commit t.xid t.subs
  | .aborting x | .aborted x _ => Apart s ⟨x, []⟩ ∧ s.mgr.clog.lookup x = some .aborted
  | .filed t g => Open s t ∧ s.files.lookup g = some t ∧
      (∀ g' p, g' ≠ g → s.files.lookup g' = some p → ∀ x ∈ t.members, x ∉ p.members) ∧
      ∀ g' p, s.prepared.lookup g' = some p → ∀ x ∈ t.members, x ∉ p.members
  | .reserved g p _ => g ∈ s.resolving ∧
      (∀ q, s.prepared.lookup g = some q → Open s q ∨ Decided s q) ∧
      (s.prepared.lookup g = some p ∨ Decided s p)
  | .validated g p _ => g ∈ s.resolving ∧ s.prepared.lookup g = some p ∧
      s.files.lookup g = some p ∧ Open s p
  | .deciding g p d lsn | .waiting g p d lsn => g ∈ s.resolving ∧
      s.prepared.lookup g = some p ∧ s.files.lookup g = some p ∧
      s.wal.log[lsn]? = some (d.record p) ∧
      ∀ x ∈ p.members, s.mgr.clog.lookup x = some .inProgress
  | .finalised g p _ => g ∈ s.resolving ∧ s.prepared.lookup g = some p ∧
      s.files.lookup g = some p ∧ Decided s p
  | .removed g p => g ∈ s.resolving ∧ s.prepared.lookup g = some p ∧ Decided s p
  | .forgetting g p => s.prepared.lookup g = some p ∧ Decided s p
  | .exporting redo lsn _ todo entries => lsn < s.wal.durable ∧ Covers s redo todo entries ∧
      Exact s entries
  | .exported redo sn => sn.lsn < s.wal.durable ∧ Covers s redo [] sn.entries ∧ Exact s sn.entries
  | .written redo true => ∃ sn ∈ s.snapshot, Covers s redo [] sn.entries
  | .pruning redo todo oldest true => redo ≤ s.wal.durable ∧ ∀ (l : ℕ) r, l < redo →
      s.wal.log[l]? = some r → InSnapshot s r ∨ (∃ o ∈ oldest, o ≤ l) ∨
        s.mgr.clog.lookup r.header = some .inProgress ∧ r.header ∈ todo ∧
          ∃ f ∈ s.firstLsn.lookup r.header, f ≤ l
  | .pruned redo oldest => redo ≤ s.wal.durable ∧ ∀ (l : ℕ) r, l < redo →
      s.wal.log[l]? = some r → InSnapshot s r ∨ ∃ o ∈ oldest, o ≤ l
  | .idle | .written _ false | .pruning _ _ _ false => True

/-- The XIDs that a thread may decide. -/
def Pc.own : Pc → List ℕ
  | .active t _ | .recording t _ _ | .committing t _ | .committed t _ | .preparing t _ |
    .creating t _ | .writing t _ | .filed t _ => t.members
  | .validated _ p _ | .deciding _ p _ _ | .waiting _ p _ _ => p.members
  | _ => []

/-- The prepared transaction that a thread has reserved. -/
def Pc.reserves : Pc → Option ℕ
  | .reserved g _ _ | .validated g _ _ | .deciding g _ _ _ | .waiting g _ _ _ | .finalised g _ _ |
    .removed g _ => some g
  | _ => none

/-- The prepared transaction that a thread has validated and not yet forgotten. -/
def Pc.decides : Pc → Option ℕ
  | .validated g _ _ | .deciding g _ _ _ | .waiting g _ _ _ | .finalised g _ _ |
    .removed g _ | .forgetting g _ => some g
  | _ => none

structure Separate (pc k : Pc) : Prop where
  own : ∀ x ∈ pc.own, x ∉ k.own
  reserves : ∀ g, pc.reserves = some g → k.reserves ≠ some g
  decides : ∀ g, pc.decides = some g → k.decides ≠ some g
  window : pc.inWindow = true → k.inWindow = false

theorem Separate.symm (h : Separate pc k) : Separate k pc :=
  ⟨fun x hk hpc => h.own x hpc hk, fun g hk hpc => h.reserves g hpc hk,
    fun g hk hpc => h.decides g hpc hk, fun hk => by
      by_contra hpc
      rw [h.window (by simpa using hpc)] at hk
      cases hk⟩

end UltraSql.Recovery
