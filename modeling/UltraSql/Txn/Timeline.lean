import UltraSql.Txn.Journal

/-!
# Transactions over time

The histories of the heap are about writes by many transactions, read through many snapshots. This
module has the part they share: the transactions themselves. A clock counts the steps.

A transaction begins in three steps: `next_xid` is incremented, the XID enters the running set, and
the snapshot is taken. Savepoints get their XIDs in the first two of these steps as well. The `xmax`
of a snapshot is loaded before the section that reads the running set. As `next_xid` only grows, it
is any value between the XID of the transaction and the present one. The other operations of the
transaction manager are one step each.

A snapshot is wrong about an XID below its `xmax` that is not in the running set yet, and about one
from its `xmax` on that has ended. `Timely` says that there is none.

A session that rolls back does so in two parts. The manager takes the XIDs out, and the session
visits the pages to undo the writes of each of them. ROLLBACK TO does the first part first and
visits the XIDs from the smallest on. ROLLBACK visits the pages first, from the largest XID down,
and then ends the transaction in the commit log. The XIDs still to be visited are in the phase.

**Theorem (`Inv.resolved`).** A snapshot has an XID of another transaction as resolved exactly when
the XID ended before the snapshot was taken.
-/

namespace UltraSql

namespace TransactionManager

/-- `refresh_snapshot`: the next command, and under READ COMMITTED a new snapshot, with the `xmax`
loaded before. -/
def refreshSnapshot (m : TransactionManager) (t : Transaction) (xmax : ℕ) :
    TransactionManager × Transaction :=
  let t := t.nextCommand
  match t.isolation with
  | .readCommitted =>
    let snapshot := m.snapshotSection t.xid t.currentCommand xmax (.fromSubtxn t.subtxnStack)
    (m.recordFloor t.xid snapshot.xmin, { t with snapshot := snapshot })
  | .repeatableRead | .serializable => (m, t.keepSnapshot)

end TransactionManager

/-- The XIDs whose writes a transaction undoes when it ends without a commit. -/
def Transaction.abortWriteXidFamily (t : Transaction) : List ℕ :=
  ((t.xid :: (t.subtxnStack.liveStackSubxids ++ t.subtxnStack.mergedUp ++
    t.subtxnStack.rolledBack)).insertionSort (· ≤ ·)).dedup

namespace Timeline

/-- The two visits to the pages that undo the writes of one XID. -/
inductive Visit
  | updates
  | stamps
  deriving DecidableEq, Repr

/-- Both visits for each XID, in this order. -/
def visits (xids : List ℕ) : List (ℕ × Visit) :=
  xids.flatMap fun x => [(x, .updates), (x, .stamps)]

inductive Phase
  | running
  /-- after a ROLLBACK TO -/
  | undoing (todo : List (ℕ × Visit))
  /-- before the end of a transaction that rolls back -/
  | aborting (todo : List (ℕ × Visit))
  | committed
  | aborted
  deriving DecidableEq

def Phase.status : Phase → XidStatus
  | running | undoing _ | aborting _ => .inProgress
  | committed => .committed
  | aborted => .aborted

/-- The visits still to be made. -/
def Phase.todo : Phase → List (ℕ × Visit)
  | undoing todo | aborting todo => todo
  | running | committed | aborted => []

/-- A session's transaction and the time at which its snapshot was taken. -/
structure Client where
  handle : Transaction
  phase : Phase := .running
  view : ℕ

structure State where
  mgr : TransactionManager := {}
  clients : FiniteMap ℕ Client := ∅
  /-- when an XID stopped running -/
  ended : ℕ → Option ℕ := fun _ => none
  clock : ℕ := 0
  /-- the XIDs that are not in the running set yet -/
  loose : List ℕ := []
  /-- the XIDs in the running set that belong to no transaction yet -/
  ready : List ℕ := []

inductive Act
  /-- the `fetch_add` of `begin`, `begin_savepoint` or `rollback_to_savepoint` -/
  | allocate
  | publish (x : ℕ)
  | begin (x : ℕ) (isolation : IsolationLevel) (xmax : ℕ)
  | refresh (x xmax : ℕ)
  | savepoint (x sub : ℕ) (name : String)
  | release (x : ℕ) (name : String)
  | rollbackTo (x sub : ℕ) (name : String)
  | commit (x : ℕ)
  /-- start to roll back -/
  | rollback (x : ℕ)
  /-- end a transaction whose writes are undone -/
  | abort (x : ℕ)
  deriving DecidableEq

/-- The session that makes the step. -/
def Act.session : Act → Option ℕ
  | .allocate | .publish _ | .begin .. => none
  | .refresh x _ | .savepoint x .. | .release x _ | .rollbackTo x .. | .commit x | .rollback x
  | .abort x => some x

/-- A step without savepoints. -/
def Act.plain : Act → Bool
  | .savepoint .. | .release .. | .rollbackTo .. => false
  | _ => true

namespace State

variable (s : State)

/-- A step of a session that is between two statements. -/
def whenRunning (x : ℕ) (f : Client → Option State) : Option State :=
  match s.clients.lookup x with
  | some c => if c.phase = .running then f c else none
  | none => none

def setClient (x : ℕ) (c : Client) : State := { s with clients := s.clients.insert x c }

/-- The XIDs end now. -/
def endXids (xids : List ℕ) : State :=
  { s with ended := fun y => if y ∈ xids then some s.clock else s.ended y }

/-- The next visit of a session that undoes its writes, and the phase after it. -/
def nextVisit (x : ℕ) : Option ((ℕ × Visit) × State) :=
  match s.clients.lookup x with
  | some c =>
    match c.phase with
    | .undoing (v :: todo) =>
      some (v, s.setClient x
        { c with phase := if todo.isEmpty then .running else .undoing todo })
    | .aborting (v :: todo) => some (v, s.setClient x { c with phase := .aborting todo })
    | _ => none
  | none => none

end State

/-- A session takes an XID that it has allocated after all its others. -/
def State.takesXid (s : State) (t : Transaction) (sub : ℕ) : Bool :=
  decide (sub ∈ s.ready) && (Savepoints.txnXids t).all (· < sub)

def effect (s : State) : Act → Option State
  | .allocate => some { s with mgr := s.mgr.allocXid, loose := s.mgr.nextXid :: s.loose }
  | .publish x =>
    if x ∈ s.loose then
      some { s with
        mgr := (s.mgr.clogInsert x).publish x
        loose := s.loose.filter (· ≠ x)
        ready := x :: s.ready }
    else none
  | .begin x isolation xmax =>
    if x ∈ s.ready ∧ x < xmax ∧ xmax ≤ s.mgr.nextXid then
      let (m, t) := s.mgr.beginAt x isolation xmax
      some { s.setClient x { handle := t, view := s.clock } with
        mgr := m
        ready := s.ready.filter (· ≠ x) }
    else none
  | .refresh x xmax => s.whenRunning x fun c =>
    if x < xmax ∧ xmax ≤ s.mgr.nextXid then
      let (m, t) := s.mgr.refreshSnapshot c.handle xmax
      some { s.setClient x
        { c with
          handle := t
          view := if c.handle.isolation = .readCommitted then s.clock else c.view } with mgr := m }
    else none
  | .savepoint x sub name => s.whenRunning x fun c =>
    if s.takesXid c.handle sub then
      let (m, t) := s.mgr.beginSavepointAt c.handle sub name
      some { s.setClient x { c with handle := t } with
        mgr := m
        ready := s.ready.filter (· ≠ sub) }
    else none
  | .release x name => s.whenRunning x fun c =>
    match TransactionManager.releaseSavepoint c.handle name with
    | .ok (_, t) => some (s.setClient x { c with handle := t })
    | .error _ => none
  | .rollbackTo x sub name => s.whenRunning x fun c =>
    if s.takesXid c.handle sub then
      match s.mgr.rollbackToSavepointAt c.handle sub name with
      | .ok (m, t, dead) =>
        some ({ s.setClient x { c with handle := t, phase := .undoing (visits dead) } with
          mgr := m
          ready := s.ready.filter (· ≠ sub) }.endXids dead)
      | .error _ => none
    else none
  | .commit x => s.whenRunning x fun c =>
    match s.mgr.commitFinalizeVisible c.handle c.handle.committedSubxidFamily with
    | .ok m =>
      some ({ s.setClient x { c with phase := .committed } with mgr := m }.endXids
        (x :: c.handle.committedSubxidFamily))
    | .error _ => none
  | .rollback x => s.whenRunning x fun c =>
    some (s.setClient x
      { c with phase := .aborting (visits c.handle.abortWriteXidFamily.reverse) })
  | .abort x =>
    match s.clients.lookup x with
    | some c =>
      if c.phase = .aborting [] then
        match s.mgr.abort c.handle with
        | .ok m =>
          some ({ s.setClient x { c with phase := .aborted } with mgr := m }.endXids
            (x :: c.handle.committedSubxidFamily))
        | .error _ => none
      else none
    | none => none

/-- One step, with the clock moved on. -/
def step (s : State) (a : Act) : Option State :=
  (effect s a).map fun s' => { s' with clock := s.clock + 1 }

/-! ## The moment of a snapshot -/

/-- A snapshot that has loaded `xmax` is right about which XIDs have ended. -/
def State.Clear (s : State) (xmax : ℕ) : Prop :=
  (∀ y ∈ s.loose, xmax ≤ y) ∧ ∀ y < s.mgr.nextXid, xmax ≤ y → s.ended y = none

instance instDecidableClear (s : State) (xmax : ℕ) : Decidable (s.Clear xmax) :=
  inferInstanceAs (Decidable (_ ∧ _))

/-- **Snapshots are taken at a clear moment**, and the command counter does not saturate. -/
def Timely (s : State) : Act → Bool
  | .begin _ _ xmax => s.Clear xmax
  | .refresh x xmax =>
    match s.clients.lookup x with
    | some c =>
      (c.handle.isolation ≠ .readCommitted ∨ s.Clear xmax) ∧ c.handle.currentCommand < 2 ^ 32 - 1
    | none => true
  | _ => true

/-- The steps of `begin` without a step of another thread in between. -/
def opening (x : ℕ) (isolation : IsolationLevel) : List Act :=
  [.allocate, .publish x, .begin x isolation (x + 1)]

end Timeline

end UltraSql
