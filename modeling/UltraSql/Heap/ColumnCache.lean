import UltraSql.Heap.Writers

/-!
# The column cache

A scan of a relation may keep what it has read as a projection, and later scans take the projection
instead of the heap, without another visibility check. There is one projection per relation, under
the version of the relation. Every write to the heap is followed by `bumpVersion`, which raises the
version, drops the projection and records the largest XID that has written. `isSnapshotCoherent`
decides from this XID and the snapshot alone who may publish a projection and who may read it.

The machine puts the cache beside the histories of the heap. What is one step here is one step of
the source: a write and the bump after it are two steps, the builder's read of the version, its
gate, its scan and `put` are four, and each of the ways in which a transaction ends without a commit
has its own order of undo, invalidation and end. A statement scans before it writes. Where a scan
feeds a write to the same relation, `put` finds another version and drops what it is given.

The session knows which tables it has modified by the statements that have succeeded.
-/

namespace UltraSql

open Function
open Heap (Payload)

/-! ## The cache of one relation -/

/-- A published projection and the version that it was built at. -/
structure CachedColumns where
  version : ℕ
  rows : List Payload
  deriving DecidableEq, Repr

structure ColumnCache where
  version : ℕ := 0
  entry : Option CachedColumns := none
  lastWriterXid : ℕ := 0
  deriving DecidableEq, Repr

namespace ColumnCache

variable (cache : ColumnCache)

/-- `bump_version` -/
def bumpVersion (writer : ℕ) : ColumnCache where
  version := cache.version + 1
  entry := none
  lastWriterXid := if cache.lastWriterXid < writer then writer else cache.lastWriterXid

/-- `get` -/
def get : Option CachedColumns := cache.entry.filter (·.version = cache.version)

/-- `is_snapshot_coherent` -/
def isSnapshotCoherent (snapshot : Snapshot) (oracle : Oracle) : Bool :=
  if !snapshot.xip.isEmpty then false
  else
    Xid.isInvalid cache.lastWriterXid || snapshot.isCurrentXid cache.lastWriterXid ||
      (!snapshot.xidInProgress cache.lastWriterXid && (oracle cache.lastWriterXid).isCommitted)

/-- `get_for_snapshot` -/
def getForSnapshot (snapshot : Snapshot) (oracle : Oracle) : Option CachedColumns :=
  if cache.isSnapshotCoherent snapshot oracle then cache.get else none

/-- `put` -/
def put (columns : CachedColumns) : ColumnCache :=
  if columns.version ≠ cache.version then cache else { cache with entry := some columns }

end ColumnCache

namespace CachedHeap

/-! ## Sessions -/

/-- How a transaction ends that does not commit. -/
inductive AbortPath
  /-- ROLLBACK, and PREPARE TRANSACTION in a failed block: undo, invalidate, end. -/
  | rollback
  /-- `rollback_transaction_after_error`: invalidate, undo, end. -/
  | error
  /-- COMMIT in a failed block: undo, end, invalidate. -/
  | failedCommit
  /-- `abort_before_commit_record`, in a COMMIT that fails: undo, end. -/
  | commitError
  /-- The end of the connection with a transaction open: undo, end. -/
  | disconnect
  /-- ROLLBACK PREPARED: undo, end. -/
  | prepared
  deriving DecidableEq, Repr

inductive Job
  /-- between two statements -/
  | idle
  /-- in a statement that has not written -/
  | ready
  | writing
  /-- after a statement that failed in a block -/
  | failed
  /-- in ROLLBACK TO -/
  | restoring
  | ending (path : AbortPath) (invalidated : Bool)
  deriving DecidableEq, Repr

/-- What comes after `invalidate_modified_table_column_caches`. -/
def Job.invalidated : Job → Job
  | ending path _ => ending path true
  | _ => idle

/-- How far a scan is that builds a projection. -/
inductive Stage
  | sampled
  | gated
  | scanned (rows : List Payload)
  deriving DecidableEq, Repr

/-- A scan that builds a projection: whose statement it is in, and `target_version`. -/
structure Build where
  session : ℕ
  command : ℕ
  version : ℕ
  stage : Stage
  deriving DecidableEq, Repr

structure State where
  heap : Heap.State := {}
  cache : ColumnCache := {}
  job : ℕ → Job := fun _ => .ready
  /-- the XID of a write that the version has not been bumped for -/
  pending : ℕ → Option ℕ := fun _ => none
  /-- `pending_table_modifications` has the table -/
  modified : ℕ → Bool := fun _ => false
  /-- after PREPARE TRANSACTION -/
  prepared : ℕ → Bool := fun _ => false
  builds : ℕ → Option Build := fun _ => none

inductive Act
  /-- an operation of the transaction manager, except the start and the end of a rollback -/
  | txn (a : Timeline.Act)
  /-- an insert, an update or a delete -/
  | write (a : Heap.Act)
  /-- `bump_version` after a write or a visit -/
  | bump (x : ℕ)
  /-- the end of a statement that succeeds -/
  | finish (x : ℕ)
  /-- the end of a statement that fails in a block -/
  | fail (x : ℕ)
  /-- PREPARE TRANSACTION -/
  | prepare (x : ℕ)
  | rollback (x : ℕ) (path : AbortPath)
  /-- the next visit of a session that undoes its writes -/
  | visit (x : ℕ)
  /-- `invalidate_modified_table_column_caches` -/
  | invalidate (x : ℕ)
  /-- the end of a rollback -/
  | abort (x : ℕ)
  | vacuum (a : Heap.Act)
  /-- the scan `i` of the session `x` reads the version -/
  | sample (i x : ℕ)
  | gate (i : ℕ)
  | scan (i : ℕ)
  | put (i : ℕ)

end CachedHeap

namespace Heap

/-- A step of vacuum, or a look of a statement at the visibility map. -/
def Act.isVacuum : Act → Bool
  | .enter .. | .sample _ | .trim _ | .mark _ | .markElsewhere => true
  | _ => false

/-- A heap scan under a snapshot. -/
def State.scan (s : State) (snapshot : Snapshot) : List Payload :=
  s.slots.filterMap (·.row.read snapshot s.txn.mgr.status)

end Heap

namespace CachedHeap

namespace Act

/-- The step of the heap that is part of the step. -/
def heapAct : Act → Option Heap.Act
  | txn a => some (.txn a)
  | write a | vacuum a => some a
  | rollback x _ => some (.txn (.rollback x))
  | visit x => some (.visit x)
  | abort x => some (.txn (.abort x))
  | _ => none

end Act

namespace State

variable (s : State)

def phase (x : ℕ) : Option Timeline.Phase := (s.heap.txn.clients.lookup x).map (·.phase)

/-- The transaction is to end although the projection has not been invalidated. -/
def EndsFirst (x : ℕ) : Prop :=
  ∃ path ∈ [AbortPath.failedCommit, .commitError, .disconnect, .prepared],
    s.job x = .ending path false

instance instDecidableEndsFirst (x : ℕ) : Decidable (s.EndsFirst x) :=
  inferInstanceAs (Decidable (∃ _ ∈ _, _))

/-- When a session takes a step. -/
def Enabled : Act → Prop
  | .txn (.refresh x _) | .txn (.savepoint x ..) | .txn (.release x _) =>
    s.job x = .idle ∧ s.prepared x = false
  | .txn (.rollbackTo x ..) => (s.job x = .idle ∨ s.job x = .failed) ∧ s.prepared x = false
  | .txn (.commit x) => s.job x = .idle
  | .txn (.rollback _) | .txn (.abort _) => False
  | .write a => ∃ x ∈ a.writer, s.job x = .ready ∨ s.job x = .writing
  | .finish x | .fail x => (s.job x = .ready ∨ s.job x = .writing) ∧ s.pending x = none
  | .prepare x => s.job x = .idle ∧ s.prepared x = false ∧ s.phase x = some .running
  | .rollback x .rollback => (s.job x = .idle ∨ s.job x = .failed) ∧ s.prepared x = false
  | .rollback x .error =>
    (s.job x = .idle ∨ s.job x = .ready ∨ s.job x = .writing) ∧ s.pending x = none ∧
      s.prepared x = false
  | .rollback x .failedCommit => s.job x = .failed ∧ s.prepared x = false
  | .rollback x .commitError => s.job x = .idle ∧ s.prepared x = false
  | .rollback x .disconnect =>
    (s.job x = .idle ∨ s.job x = .ready ∨ s.job x = .writing ∨ s.job x = .failed) ∧
      s.pending x = none ∧ s.prepared x = false
  | .rollback x .prepared => s.job x = .idle ∧ s.prepared x = true
  | .visit x =>
    s.pending x = none ∧
      (s.job x = .restoring ∨ s.job x = .ending .rollback false ∨ s.job x = .ending .error true ∨
        s.EndsFirst x)
  | .invalidate x =>
    s.pending x = none ∧
      (s.job x = .restoring ∧ s.phase x = some .running ∨
        s.job x = .ending .rollback false ∧ s.phase x = some (.aborting []) ∨
        s.job x = .ending .error false ∨
        s.job x = .ending .failedCommit false ∧ s.phase x = some .aborted)
  | .abort x =>
    s.pending x = none ∧
      (s.job x = .ending .rollback true ∨ s.job x = .ending .error true ∨ s.EndsFirst x)
  | .vacuum a => a.isVacuum = true
  | _ => True

instance : DecidablePred s.Enabled := fun a => by
  unfold Enabled
  split <;> infer_instance

/-- The state after a step that is one of the heap as well. -/
def afterHeap (h : Heap.State) : Act → State
  | .txn (.refresh x _) => { s with heap := h, job := update s.job x .ready }
  | .txn (.rollbackTo x ..) => { s with heap := h, job := update s.job x .restoring }
  | .write a =>
    match a.writer with
    | some x =>
      if h.slots = s.heap.slots then { s with heap := h }
      else
        { s with
          heap := h
          job := update s.job x .writing
          pending := update s.pending x ((s.heap.running x).map (·.handle.writeXid)) }
    | none => { s with heap := h }
  | .rollback x path => { s with heap := h, job := update s.job x (.ending path false) }
  | .visit x =>
    if h.slots.map (·.row) = s.heap.slots.map (·.row) then { s with heap := h }
    else
      { s with
        heap := h
        pending := update s.pending x ((s.heap.txn.nextVisit x).map (·.1.1)) }
  | _ => { s with heap := h }

/-- A step of the scan `i`, in the statement that it is part of. -/
def onBuild (i : ℕ) (f : Build → Timeline.Client → Option State) : Option State :=
  match s.builds i with
  | some b =>
    match s.heap.running b.session with
    | some c =>
      if s.job b.session = .ready ∧ c.handle.currentCommand = b.command then f b c else none
    | none => none
  | none => none

/-- A step that leaves the heap alone. -/
def stepLocal : Act → Option State
  | .bump x => (s.pending x).map fun z =>
    { s with cache := s.cache.bumpVersion z, pending := update s.pending x none }
  | .finish x => some
    { s with
      job := update s.job x .idle
      modified := update s.modified x (s.modified x || decide (s.job x = .writing)) }
  | .fail x => some { s with job := update s.job x .failed }
  | .prepare x => some
    { s with
      prepared := update s.prepared x true
      modified := update s.modified x false }
  | .invalidate x => some
    { s with
      cache := if s.modified x then s.cache.bumpVersion x else s.cache
      job := update s.job x (s.job x).invalidated }
  | .sample i x =>
    match s.heap.running x with
    | some c =>
      if s.job x = .ready then
        let b : Build := ⟨x, c.handle.currentCommand, s.cache.version, .sampled⟩
        some { s with builds := update s.builds i (some b) }
      else none
    | none => none
  | .gate i => s.onBuild i fun b c =>
    if b.stage = .sampled then
      let coherent := s.cache.isSnapshotCoherent c.handle.snapshot s.heap.txn.mgr.status
      some { s with
        builds := update s.builds i (if coherent then some { b with stage := .gated }
          else none) }
    else none
  | .scan i => s.onBuild i fun b c =>
    if b.stage = .gated then
      let b' := { b with stage := .scanned (s.heap.scan c.handle.snapshot) }
      some { s with builds := update s.builds i (some b') }
    else none
  | .put i => s.onBuild i fun b _ =>
    match b.stage with
    | .scanned rows => some
      { s with
        cache := s.cache.put ⟨b.version, rows⟩
        builds := update s.builds i none }
    | _ => none
  | _ => none

end State

def step (s : State) (a : Act) : Option State :=
  if s.Enabled a then
    match a.heapAct with
    | some b => (Heap.step s.heap b).map (s.afterHeap · a)
    | none => s.stepLocal a
  else none

def machine : Machine State Act where
  init := {}
  step := step

end CachedHeap

end UltraSql
