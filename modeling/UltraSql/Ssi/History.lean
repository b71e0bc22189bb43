import UltraSql.Lib.Machine
import UltraSql.Lib.SerializationGraph
import UltraSql.Ssi.Statements
import UltraSql.Txn.Manager

/-!
# Histories of serializable transactions

Any number of serializable transactions over the transaction manager and the conflict graph. A
statement takes its predicate locks and records its write conflicts tag by tag, evaluates on the
frozen snapshot and writes under first-updater-wins. A commit is `commit_check_serializable`, with
the `next_xid` loaded before it, and then `commit_finalize_visible`. A transaction begins in three
steps: its XID is allocated, enters the running set, and the snapshot is taken, with an `xmax`
loaded before. Aborts and the two halves of a sweep, `oldest_in_progress` and
`collect_ssi_garbage`, are one step each.

The history keeps, for each row, the transactions that wrote a version of it, newest first, and for
each read the version it returned. `Dependency` is the multiversion serialization graph of the
committed transactions.

The condition `Guarded` on steps has four parts. `NoMissedWriter` is about the moment a reader takes
a lock: `record_write_conflicts` looks for readers, but nothing looks for writers. `ReadsLocked` and
`WritesTagged` say that locks and tags are those of the rows that are read and written, and `Timely`
that no transaction is in the middle of `begin` when it matters.
-/

namespace UltraSql

namespace Ssi

/-! ## Rows and tags -/

/-- How statements name the rows they touch: the tags of their locks and of their write conflicts,
the tags under which a row is read, and the tag lists that cover a row. -/
structure Rows (ι σ : Type*) where
  locks : σ → List PredicateLockTag
  tags : σ → List PredicateLockTag
  reads : ι → PredicateLockTag → Bool
  covers : ι → List PredicateLockTag → Bool
  covered : ∀ i held tags, reads i held = true → covers i tags = true →
    ∃ tag ∈ tags, predicateLockCovers held tag = true

/-- A plan and the catalog snapshot that it runs on. -/
structure Statement where
  catalog : ℕ → Option TableEntry
  plan : LogicalPlan

/-- The rows of tables, with the tags that the server computes. -/
def tableRows : Rows Row Statement where
  locks st := (collectReadLocks st.catalog st.plan).eraseDups
  tags st := serializableWriteConflictTags st.catalog st.plan
  reads := Row.reads
  covers := Row.covers
  covered _ held _ hr hc := Row.covers_iff.1 hc held hr

/-! ## The machine -/

inductive Phase
  | active
  /-- `commit_check_serializable` has failed -/
  | doomed
  /-- `commit_check_serializable` has succeeded -/
  | checked
  | committed
  | aborted
  deriving DecidableEq

/-- The status in the commit log. -/
def Phase.status : Phase → XidStatus
  | active | doomed | checked => .inProgress
  | committed => .committed
  | aborted => .aborted

/-- A session's transaction, with the statements' locks and write tags so far and the times of its
begin and its commit check. -/
structure Txn where
  handle : Transaction
  phase : Phase := .active
  locks : List PredicateLockTag := []
  writeTags : List PredicateLockTag := []
  beginAt : ℕ
  checkAt : Option ℕ := none

structure State (ι : Type*) where
  mgr : TransactionManager := {}
  ssi : SsiManager := {}
  txns : FiniteMap ℕ Txn := ∅
  /-- the writers of the versions of a row, newest first -/
  versions : ι → List ℕ := fun _ => []
  /-- the reader, the row and the writer of the version returned, `none` for the original one -/
  reads : List (ℕ × ι × Option ℕ) := []
  /-- the antidependencies recorded so far -/
  edges : List (ℕ × ℕ) := []
  /-- the results of `oldest_in_progress` so far -/
  horizons : List ℕ := []
  clock : ℕ := 0
  /-- the XIDs that are not in the running set yet -/
  loose : List ℕ := []
  /-- the XIDs in the running set without a snapshot -/
  ready : List ℕ := []

inductive Act (ι σ : Type*)
  | allocate
  | publish (x : ℕ)
  | begin (x xmax : ℕ)
  /-- `record_serializable_predicate_locks`, for one tag -/
  | lock (x : ℕ) (st : σ) (tag : PredicateLockTag)
  | read (x : ℕ) (i : ι)
  /-- `record_serializable_write_conflicts`, for one tag -/
  | conflicts (x : ℕ) (st : σ) (tag : PredicateLockTag)
  | write (x : ℕ) (i : ι)
  /-- `commit_check_serializable` -/
  | check (x horizon : ℕ)
  /-- `commit_finalize_visible` -/
  | finalize (x : ℕ)
  | abort (x : ℕ)
  | sample
  | collect (horizon : ℕ)

namespace State

variable {ι : Type*} (s : State ι)

/-- A section of a transaction that is in this phase. -/
def inPhase (x : ℕ) (phase : Phase) (f : Txn → Option (State ι)) : Option (State ι) :=
  match s.txns.lookup x with
  | some t => if t.phase = phase then f t else none
  | none => none

def setTxn (x : ℕ) (t : Txn) : State ι := { s with txns := s.txns.insert x t }

/-- A version that the transaction sees: its own, or one committed before its snapshot. -/
def sees (x : ℕ) (snapshot : Snapshot) (w : ℕ) : Bool :=
  w == x || isCommittedBeforeSnapshot w snapshot s.mgr.status

/-- First updater wins: every version of the row is seen or rolled back. -/
def mayWrite (x : ℕ) (snapshot : Snapshot) (ws : List ℕ) : Bool :=
  ws.all fun w => s.sees x snapshot w || (s.mgr.status w).isAborted

/-- End a transaction in the commit log, with what becomes of the conflict graph. -/
def terminate (x : ℕ) (t : Txn) (phase : Phase) (ssi : SsiManager) :
    Except TxnError TransactionManager → Option (State ι)
  | .ok m => some { s.setTxn x { t with phase := phase } with mgr := m, ssi := ssi }
  | .error _ => none

end State

variable {ι σ : Type*} [DecidableEq ι] (R : Rows ι σ)

def effect (s : State ι) : Act ι σ → Option (State ι)
  | .allocate => some { s with mgr := s.mgr.allocXid, loose := s.mgr.nextXid :: s.loose }
  | .publish x =>
    if x ∈ s.loose then
      some { s with
        mgr := (s.mgr.clogInsert x).publish x
        loose := s.loose.filter (· ≠ x)
        ready := x :: s.ready }
    else none
  | .begin x xmax =>
    if x ∈ s.ready ∧ x < xmax ∧ xmax ≤ s.mgr.nextXid then
      let (m, t) := s.mgr.beginAt x .serializable xmax
      some { s.setTxn x { handle := t, beginAt := s.clock } with
        mgr := m
        ssi := s.ssi.registerXid x
        ready := s.ready.filter (· ≠ x) }
    else none
  | .lock x st tag => s.inPhase x .active fun t =>
    if tag ∈ R.locks st then
      some { s.setTxn x { t with locks := t.locks ++ [tag] } with
        ssi := (s.ssi.registerXid x).addPredicateLock x tag }
    else none
  | .read x i => s.inPhase x .active fun t =>
    some { s with reads := (x, i, (s.versions i).find? (s.sees x t.handle.snapshot)) :: s.reads }
  | .conflicts x st tag => s.inPhase x .active fun t =>
    if tag ∈ R.tags st then
      let (ssi, readers) := (s.ssi.registerXid x).recordWriteConflicts x tag
      some { s.setTxn x { t with writeTags := tag :: t.writeTags } with
        ssi := ssi, edges := readers.map (·, x) ++ s.edges }
    else none
  | .write x i => s.inPhase x .active fun t =>
    if s.mayWrite x t.handle.snapshot (s.versions i) then
      some { s with versions := Function.update s.versions i ((s.versions i).insert x) }
    else none
  | .check x horizon => s.inPhase x .active fun t =>
    if x < horizon ∧ horizon ≤ s.mgr.nextXid then
      match s.ssi.commit x horizon with
      | (ssi, .ok ()) =>
        some { s.setTxn x { t with phase := .checked, checkAt := some s.clock } with ssi := ssi }
      | (ssi, .error _) => some { s.setTxn x { t with phase := .doomed } with ssi := ssi.abort x }
    else none
  | .finalize x => s.inPhase x .checked fun t =>
    s.terminate x t .committed s.ssi
      (s.mgr.commitFinalizeVisible t.handle t.handle.committedSubxidFamily)
  | .abort x =>
    match s.txns.lookup x with
    | some t =>
      if t.phase.status = .inProgress then
        s.terminate x t .aborted (s.ssi.abort x) (s.mgr.abort t.handle)
      else none
    | none => none
  | .sample => some { s with horizons := s.mgr.oldestInProgress :: s.horizons }
  | .collect horizon =>
    if horizon ∈ s.horizons then some { s with ssi := s.ssi.collectGarbage horizon } else none

/-- Any number of transactions over the rows `R`. -/
def machine : Machine (State ι) (Act ι σ) where
  init := {}
  step s a := (effect R s a).map fun s' => { s' with clock := s.clock + 1 }

/-! ## The serialization graph -/

/-- The versions of a row that are newer than the given one. -/
def newer (ws : List ℕ) : Option ℕ → List ℕ
  | some w => ws.takeWhile (· ≠ w)
  | none => ws

def Committed (s : State ι) (x : ℕ) : Prop := s.mgr.clog.lookup x = some .committed

/-- The write-write, write-read and read-write dependencies of committed transactions. -/
inductive Dependency (s : State ι) : ℕ → ℕ → Prop
  | ww {a b : ℕ} (i : ι) : Committed s a → Committed s b → a ∈ s.versions i →
      b ∈ newer (s.versions i) (some a) → Dependency s a b
  | wr {a b : ℕ} (i : ι) : Committed s a → Committed s b → a ≠ b → (b, i, some a) ∈ s.reads →
      Dependency s a b
  | rw {a b : ℕ} (i : ι) (v : Option ℕ) : Committed s a → Committed s b → a ≠ b →
      (a, i, v) ∈ s.reads → b ∈ newer (s.versions i) v → Dependency s a b

/-- The graph has no cycle. -/
def Serializable (s : State ι) : Prop := ∀ t, ¬ Relation.TransGen (Dependency s) t t

/-! ## The condition on runs -/

/-- The writer has recorded write conflicts under a tag that one of the locks covers. -/
def Overlaps (locks : List PredicateLockTag) (t : Txn) : Prop :=
  ∃ held ∈ locks, ∃ tag ∈ t.writeTags, predicateLockCovers held tag = true

instance instDecidableOverlaps (locks : List PredicateLockTag) (t : Txn) :
    Decidable (Overlaps locks t) :=
  inferInstanceAs (Decidable (∃ held ∈ locks, ∃ tag ∈ t.writeTags, _))

/-- The reader that takes a lock in this step, with the tag. -/
def locking : Act ι σ → Option (ℕ × PredicateLockTag)
  | .lock x _ tag => some (x, tag)
  | _ => none

/-- When a transaction takes a predicate lock, every other transaction that its snapshot has as
unresolved, that is not rolled back, and that has recorded write conflicts under a tag that the lock
covers, is already in its `in_conflict_out`. -/
def NoMissedWriter (s : State ι) (a : Act ι σ) : Prop :=
  ∀ p ∈ locking a, ∀ t ∈ s.txns.lookup p.1, ∀ y ∈ s.txns.keys, ∀ u ∈ s.txns.lookup y, y ≠ p.1 →
    t.handle.snapshot.xidInProgress y = true → (s.mgr.status y).isAborted = false →
    Overlaps [p.2] u → ∃ e ∈ s.ssi.lookup p.1, y ∈ e.inConflictOut

instance instDecidableNoMissedWriter (s : State ι) (a : Act ι σ) : Decidable (NoMissedWriter s a) :=
  inferInstanceAs (Decidable (∀ p ∈ locking a, _))

/-- A row is read under a lock that the transaction has taken. -/
def ReadsLocked (s : State ι) : Act ι σ → Bool
  | .read x i => (s.txns.lookup x).all fun t => t.locks.any (R.reads i)
  | _ => true

/-- The tags that the transaction has recorded cover the row that it writes. -/
def WritesTagged (s : State ι) : Act ι σ → Bool
  | .write x i => (s.txns.lookup x).all fun t => R.covers i t.writeTags
  | _ => true

/-- What was loaded from `next_xid` and the commit log is right about the XIDs of `begin`. -/
def Timely (s : State ι) : Act ι σ → Bool
  | .begin _ xmax => s.loose.all (xmax ≤ ·)
  | .check _ horizon => s.txns.keys.all (· < horizon)
  | .sample => s.loose.all (s.mgr.oldestInProgress ≤ ·)
  | _ => true

/-- **The condition.** -/
def Guarded (s : State ι) (a : Act ι σ) : Prop :=
  NoMissedWriter s a ∧ ReadsLocked R s a ∧ WritesTagged R s a ∧ Timely s a

instance instDecidableGuarded (s : State ι) (a : Act ι σ) : Decidable (Guarded R s a) :=
  inferInstanceAs (Decidable (_ ∧ _))

end Ssi

end UltraSql
