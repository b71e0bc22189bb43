import UltraSql.Index.Versions

/-!
# Time-partitioned tables

A time-partitioned table has no rows of its own. INSERT sends each row to the chunk of its bucket,
a table that `ensure_chunk` creates when the bucket is first used. A chunk is in three places: the
catalog cache and the runtime's map of chunks, which all sessions share, and the rows of the system
catalog, which belong to the transaction that created the chunk. A restart reads the catalog again,
of which it sees the rows of committed transactions, and fills the map from it.

The table of a chunk is named after the start of its bucket, and different starts have different
names, so that the cache is a map from starts. An INSERT goes on step by step. A transaction may be
rolled back at each of them, and so a crash is the rollback of what is running and a restart.
-/

namespace UltraSql.Partition

open Timeline (Client)
open Index (Tuple insertTuple running Committed)

/-- A row in the heap of a relation. -/
structure Placed (ρ : Type) where
  oid : ℕ
  row : ρ
  deriving DecidableEq

/-- What the system catalog says of a chunk, and who has written it. -/
structure ClassRow where
  xid : ℕ
  start : ℤ
  oid : ℕ
  deriving DecidableEq

inductive Point
  | idle
  /-- the next bucket is looked up -/
  | routing
  /-- its chunk is not in the map, and `create_lock` is to be taken -/
  | locking (start : ℤ)
  /-- its table is in the cache, and its rows are not in the catalog -/
  | persisting (start : ℤ) (oid : ℕ)
  | publishing (start : ℤ) (oid : ℕ)
  | inserting (oid : ℕ)
  /-- an error, after which the transaction can only roll back -/
  | failed
  deriving DecidableEq

/-- The INSERT of a transaction: the rows of the bucket at hand, and the buckets after it. -/
structure Job (ρ : Type) where
  point : Point := .idle
  rows : List ρ := []
  todo : List (ℤ × List ρ) := []

structure State (ρ : Type) where
  txn : Timeline.State := {}
  /-- the tuples of all chunks -/
  heap : List (Tuple (Placed ρ)) := []
  classRows : List ClassRow := []
  catalog : FiniteMap ℤ ℕ := ∅
  chunks : FiniteMap ℤ ℕ := ∅
  nextOid : ℕ := 16384
  createLock : Option ℕ := none
  job : ℕ → Job ρ := fun _ => {}
  /-- the catalog snapshot with which a session has planned its statement -/
  plan : ℕ → FiniteMap ℤ ℕ := fun _ => ∅

inductive Act (ρ : Type)
  | txn (a : Timeline.Act)
  | visit (x : ℕ)
  /-- INSERT of rows with their keys -/
  | insert (x : ℕ) (rows : List (ℤ × ρ))
  | next (x : ℕ)
  | fail (x : ℕ)
  | plan (session : ℕ)
  | restart

section Machine

variable {ρ : Type} (interval : ℤ)

/-- `bucket_start`, with `saturating_mul` -/
def bucketStart (value : ℤ) : ℤ := max (-2 ^ 63) (min (2 ^ 63 - 1) (value / interval * interval))

/-- The rows of each bucket, in the order of the buckets. -/
def byChunk (rows : List (ℤ × ρ)) : List (ℤ × List ρ) :=
  ((rows.map fun r => bucketStart interval r.1).insertionSort (· ≤ ·)).dedup.map fun start =>
    (start, (rows.filter fun r => bucketStart interval r.1 = start).map (·.2))

namespace State

variable (s : State ρ)

def setJob (x : ℕ) (j : Job ρ) : State ρ := { s with job := Function.update s.job x j }

/-- `ensure_chunk` and the insertion of the rows, one step. -/
def advance (x : ℕ) (c : Client) : Option (State ρ) :=
  let j := s.job x
  match j.point with
  | .idle | .failed => none
  | .routing =>
    match j.todo with
    | [] => some (s.setJob x {})
    | (key, rows) :: todo =>
      match s.chunks.lookup (bucketStart interval key) with
      | some oid => some (s.setJob x ⟨.inserting oid, rows, todo⟩)
      | none => some (s.setJob x ⟨.locking (bucketStart interval key), rows, todo⟩)
  | .locking start =>
    if s.createLock = none then
      match s.chunks.lookup start, s.catalog.lookup start with
      | some oid, _ => some (s.setJob x { j with point := .inserting oid })
      | none, some oid => some { s.setJob x { j with point := .publishing start oid } with
          createLock := some x }
      | none, none => some { s.setJob x { j with point := .persisting start s.nextOid } with
          createLock := some x
          catalog := s.catalog.insert start s.nextOid
          nextOid := s.nextOid + 1 }
    else none
  | .persisting start oid => some { s.setJob x { j with point := .publishing start oid } with
      classRows := s.classRows ++ [⟨c.handle.writeXid, start, oid⟩] }
  | .publishing start oid => some { s.setJob x { j with point := .inserting oid } with
      chunks := s.chunks.insert start oid
      createLock := none }
  | .inserting oid =>
    match j.rows with
    | [] => some (s.setJob x { j with point := .routing })
    | row :: rows => some { s.setJob x { j with rows := rows } with
        heap := insertTuple s.heap c.handle.writeXid c.handle.currentCommand ⟨oid, row⟩ }

/-- The statement fails. A table whose catalog rows cannot be written leaves the cache. -/
def fail (x : ℕ) : Option (State ρ) :=
  match (s.job x).point with
  | .routing | .inserting _ => some (s.setJob x { point := .failed })
  | .persisting start _ => some { s.setJob x { point := .failed } with
      catalog := s.catalog.erase start
      createLock := none }
  | .idle | .locking _ | .publishing .. | .failed => none

/-- The statement of a transaction that rolls back is over, and its guards are dropped. -/
def leave : Timeline.Act → State ρ
  | .rollback x => { s.setJob x {} with
      createLock := if s.createLock = some x then none else s.createLock }
  | _ => s

/-- The catalog rows that a restart sees. -/
def visibleRows : List ClassRow := s.classRows.filter fun r => Committed s.txn r.xid

/-- `bootstrap_from_heap_visible` and `rebuild_time_partition_runtime_sidecars` -/
def restarted : State ρ :=
  let catalog := s.visibleRows.foldl (fun m r => m.insert r.start r.oid) ∅
  { txn := s.txn, heap := s.heap, classRows := s.classRows
    catalog := catalog
    chunks := catalog
    nextOid := s.visibleRows.foldl (fun n r => max n (r.oid + 1)) 16384 }

/-- The scan of a chunk, if its table is in the catalog snapshot. -/
def scanChunk (catalog : FiniteMap ℤ ℕ) (snapshot : Snapshot) (oracle : Oracle) (start : ℤ) :
    List (Tuple (Placed ρ)) :=
  match catalog.lookup start with
  | some oid =>
    s.heap.filter fun v => v.row.oid = oid && (isVisible v.header snapshot oracle).isSeen
  | none => []

/-- `lower_time_partition_scan` without a predicate, and the scans of the chunks. -/
def scan (catalog : FiniteMap ℤ ℕ) (snapshot : Snapshot) (oracle : Oracle) :
    List (Tuple (Placed ρ)) :=
  (s.chunks.keys.insertionSort (· ≤ ·)).flatMap (s.scanChunk catalog snapshot oracle)

end State

/-- A snapshot is taken and a transaction committed between statements. -/
def allowed (job : ℕ → Job ρ) : Timeline.Act → Bool
  | .refresh x _ | .commit x => (job x).point = .idle
  | _ => true

def step (s : State ρ) : Act ρ → Option (State ρ)
  | .txn a =>
    if a.plain && allowed s.job a then
      (Timeline.step s.txn a).map fun t => { s.leave a with txn := t }
    else none
  | .visit x => (s.txn.nextVisit x).map fun p => { s with txn := s.txn.tick p.2 }
  | .insert x rows =>
    if (running s.txn x).isSome ∧ (s.job x).point = .idle then
      some (s.setJob x { point := .routing, todo := byChunk interval rows })
    else none
  | .next x => (running s.txn x).bind (s.advance interval x)
  | .fail x => s.fail x
  | .plan session => some { s with plan := Function.update s.plan session s.catalog }
  | .restart =>
    -- nobody is at the start of a transaction or inside one
    if s.txn.loose = [] ∧ s.txn.ready = [] ∧
        ∀ c ∈ s.txn.clients.values, c.phase = .committed ∨ c.phase = .aborted then
      some s.restarted
    else none

def machine : Machine (State ρ) (Act ρ) where
  init := {}
  step := step interval

end Machine

end UltraSql.Partition
