import UltraSql.Lock.Table

/-!
# Transactions on one lock table

Every thread runs one transaction: it begins with a fresh XID, may open subtransactions, and calls
the lock manager. `Pc` says between which two atomic sections of a call the thread is.

* `acquire_with_owner` registers the XID, looks up or inserts the entry, and runs the first
  critical section of the entry; it may then sleep and run a critical section at each wake-up.
* `try_acquire_with_owner` registers the XID, checks the victim flag, looks up the entry and runs
  its critical section.
* `release` looks up the entry, removes one grant in its critical section and prunes the entry.
  `release_all` and `release_subxact_locks` first walk the map shard by shard to collect the tags
  that have a grant they are after, then do the same for each collected tag.

`held` is a ghost: by tag, the grants that an `acquire` of this transaction returned and that no
release call of it has given up since. It follows what the calls return to the caller, not what
the table holds.
-/

namespace UltraSql.Locks

/-- How the map spreads its tags over shards. -/
structure Sharding where
  count : ℕ
  shardOf : LockTag → Fin count

variable (sh : Sharding)

/-- The lock manager and the XID counter. -/
structure Shared where
  mgr : LockManager := {}
  nextXid : ℕ := 3

inductive Pc
  | idle
  | acquire (tag : LockTag) (mode : LockMode) (owner : ℕ)
  | acquireLock (tag : LockTag) (mode : LockMode) (owner addr : ℕ)
  | wait (tag : LockTag) (mode : LockMode) (owner addr : ℕ)
  | tryCheck (tag : LockTag) (mode : LockMode) (owner : ℕ)
  | tryAcquire (tag : LockTag) (mode : LockMode) (owner : ℕ)
  | tryLock (tag : LockTag) (mode : LockMode) (owner addr : ℕ)
  | scan (r : ReleaseOf) (shards : List (Fin sh.count)) (todo affected : List LockTag)
  | sweep (r : ReleaseOf) (rest : List LockTag)
  | sweepLock (r : ReleaseOf) (tag : LockTag) (addr : ℕ) (rest : List LockTag)
  | sweepPrune (r : ReleaseOf) (tag : LockTag) (rest : List LockTag)

/-- A running transaction: its XID, the XIDs of it and of its subtransactions, and its call. -/
structure Txn where
  xid : ℕ
  family : List ℕ
  held : LockTag → List Grant := fun _ => []
  pc : Pc sh := .idle
  returned : Option (Except LockError Bool) := none

inductive Local
  | out
  | txn (t : Txn sh)

inductive Act
  | begin
  | subxact
  | acquire (tag : LockTag) (mode : LockMode) (owner : ℕ)
  | tryAcquire (tag : LockTag) (mode : LockMode) (owner : ℕ)
  | release (tag : LockTag) (mode : LockMode)
  | releaseAll
  | releaseSubxactLocks (owners : List ℕ)
  | step (cancelled timedOut : Bool)
  | markVictim (x : ℕ)
  deriving DecidableEq

variable {sh}

namespace Txn

def request (t : Txn sh) (tag : LockTag) (mode : LockMode) : LockRequest :=
  { xid := t.xid, tag := tag, mode := mode }

/-- The call returns without a change to what is held. -/
def done (t : Txn sh) (r : Except LockError Bool) : Txn sh :=
  { t with pc := .idle, returned := some r }

/-- The call returns with a grant. -/
def obtained (t : Txn sh) (tag : LockTag) (mode : LockMode) (owner : ℕ) : Txn sh :=
  { t with
    held := Function.update t.held tag
      (t.held tag ++ [{ xid := t.xid, mode := mode, owner := owner }])
    pc := .idle
    returned := some (.ok true) }

/-- After a critical section of `acquire`. -/
def afterAcquire (t : Txn sh) (tag : LockTag) (mode : LockMode) (owner addr : ℕ) :
    LockManager.Acquired → Txn sh
  | .granted => t.obtained tag mode owner
  | .waiting => { t with pc := .wait tag mode owner addr }
  | .failed e => t.done (.error e)

/-- The call has passed `tag`: it gives up what it is after there. -/
def pass (t : Txn sh) (r : ReleaseOf) (tag : LockTag) (pc : Pc sh) : Txn sh :=
  { t with held := Function.update t.held tag (r.strip t.xid (t.held tag)), pc := pc }

/-- The release call returns. A bulk release gives up what it is after on every tag. -/
def sweepDone (t : Txn sh) (r : ReleaseOf) : Txn sh :=
  { t with
    held := match r with
      | .one _ => t.held
      | r => fun tag => r.strip t.xid (t.held tag)
    pc := .idle
    returned := some (.ok true) }

end Txn

def shardTags (m : LockTable) (j : Fin sh.count) : List LockTag :=
  (m.map.keysWhere fun _ => true).filter fun tag => sh.shardOf tag = j

/-- Whether the entry of a tag has a grant that a release is after. -/
def affected (m : LockTable) (x : ℕ) (r : ReleaseOf) (tag : LockTag) : Bool :=
  match m.map.lookup tag with
  | some addr => (m.entries addr).grants.any (r.covers x)
  | none => false

/-- What `release_all` does after its loop. -/
def forgetXid (m : LockManager) (x : ℕ) : ReleaseOf → LockManager
  | .all => { m with xidStates := m.xidStates.erase x }
  | _ => m

/-- The next section of the call. `cancelled` and `timedOut` are what the wait options say. -/
def sectionStep (m : LockManager) (t : Txn sh) (cancelled timedOut : Bool) :
    Option (LockManager × Txn sh) :=
  match t.pc with
  | .idle => none
  | .acquire tag mode owner =>
    some ({ m with table := (m.table.entryOrInsert tag).1 },
      { t with pc := .acquireLock tag mode owner (m.table.entryOrInsert tag).2 })
  | .acquireLock tag mode owner addr =>
    some ((m.acquireSection (t.request tag mode) owner addr cancelled).1,
      t.afterAcquire tag mode owner addr
        (m.acquireSection (t.request tag mode) owner addr cancelled).2)
  | .wait tag mode owner addr =>
    some ((m.wakeSection (t.request tag mode) owner addr cancelled timedOut).1,
      t.afterAcquire tag mode owner addr
        (m.wakeSection (t.request tag mode) owner addr cancelled timedOut).2)
  | .tryCheck tag mode owner =>
    if m.isVictim t.xid then some (m, t.done (.error (.deadlock t.xid)))
    else some (m, { t with pc := .tryAcquire tag mode owner })
  | .tryAcquire tag mode owner =>
    some ({ m with table := (m.table.entryOrInsert tag).1 },
      { t with pc := .tryLock tag mode owner (m.table.entryOrInsert tag).2 })
  | .tryLock tag mode owner addr =>
    some ((m.trySection (t.request tag mode) owner addr).1,
      if (m.trySection (t.request tag mode) owner addr).2 then t.obtained tag mode owner
      else t.done (.ok false))
  | .scan r shards (tag :: todo) aff =>
    some (m, { t with
      pc := .scan r shards todo
        (if affected m.table t.xid r tag then aff ++ [tag] else aff) })
  | .scan r (j :: shards) [] aff =>
    some (m, { t with pc := .scan r shards (shardTags m.table j) aff })
  | .scan r [] [] aff => some (m, { t with pc := .sweep r aff })
  | .sweep r (tag :: rest) =>
    match m.table.map.lookup tag with
    | some addr => some (m, { t with pc := .sweepLock r tag addr rest })
    | none => some (m, t.pass r tag (.sweep r rest))
  | .sweep r [] => some (forgetXid m t.xid r, t.sweepDone r)
  | .sweepLock r tag addr rest =>
    some (m.modify addr (LockEntry.strip t.xid r), t.pass r tag (.sweepPrune r tag rest))
  | .sweepPrune r tag rest =>
    some ({ m with table := m.table.pruneEntryIfEmpty tag }, { t with pc := .sweep r rest })

/-- `release`. -/
def Txn.release (t : Txn sh) (tag : LockTag) (mode : LockMode) : Txn sh :=
  { t with pc := .sweep (.one mode) [tag] }

/-- `release_all`. -/
def Txn.releaseAll (t : Txn sh) : Txn sh :=
  { t with pc := .scan .all (List.finRange sh.count) [] [] }

/-- `release_subxact_locks`. -/
def Txn.releaseSubxactLocks (t : Txn sh) (owners : List ℕ) : Txn sh :=
  if owners.isEmpty then t.done (.ok true)
  else { t with pc := .scan (.owners owners) (List.finRange sh.count) [] [] }

/-- The calls of a transaction. It acts under XIDs of its own family only. -/
def callStep (s : Shared) (t : Txn sh) : Act → Option (Shared × Txn sh)
  | .subxact =>
    some ({ s with nextXid := s.nextXid + 1 }, { t with family := s.nextXid :: t.family })
  | .acquire tag mode owner =>
    if owner ∈ t.family then
      some ({ s with mgr := s.mgr.ensureXidState t.xid }, { t with pc := .acquire tag mode owner })
    else none
  | .tryAcquire tag mode owner =>
    if owner ∈ t.family then
      some ({ s with mgr := s.mgr.ensureXidState t.xid }, { t with pc := .tryCheck tag mode owner })
    else none
  | .release tag mode => some (s, t.release tag mode)
  | .releaseAll => some (s, t.releaseAll)
  | .releaseSubxactLocks owners =>
    if ∀ o ∈ owners, o ∈ t.family then some (s, t.releaseSubxactLocks owners) else none
  | _ => none

/-- Whether the transaction is between two calls. -/
def Pc.isIdle : Pc sh → Bool
  | .idle => true
  | _ => false

def step (s : Shared) (l : Local sh) (a : Act) : Option (Shared × Local sh) :=
  match a, l with
  | .markVictim x, l => some ({ s with mgr := s.mgr.markVictim x }, l)
  | .begin, .out =>
    some ({ s with nextXid := s.nextXid + 1 }, .txn { xid := s.nextXid, family := [s.nextXid] })
  | .step cancelled timedOut, .txn t =>
    (sectionStep s.mgr t cancelled timedOut).map fun p => ({ s with mgr := p.1 }, .txn p.2)
  | a, .txn t =>
    if t.pc.isIdle then (callStep s t a).map fun p => (p.1, .txn p.2) else none
  | _, .out => none

variable (sh)

def program : Program Shared (Local sh) Act where
  step := step

/-- `n` threads on an empty lock table. -/
def machine (n : ℕ) : Machine (Program.State Shared (Local sh) n) (Fin n × Act) :=
  (program sh).machine n {} .out

end UltraSql.Locks
