import UltraSql.Index.Versions

/-!
# Materialized views over one table

A materialized view is a table of its own and a count of the rows of its query that it has. After
each COMMIT of a transaction that has inserted into the source, the session begins a transaction of
maintenance, runs the query, skips as many rows as the count says and inserts the others. It adds
their number to the count after the transaction has committed.

The rows come in the order of the access path. A sequential scan goes by the pages and the slots on
them, an index scan by the key, and a parallel scan has no order of its own. A batch of rows goes to
the page where the last batch ended and then to the pages after it. A row that ON CONFLICT DO UPDATE
changes gets a new version, on its page if there is room, and otherwise on any page that has.

**Theorem (`spec_of_step`).** What the steps do, branch by branch.
-/

namespace UltraSql.View

open Timeline (Client Visit)
open Heap Option
open Index

/-- The queries that `append_only_materialized_source_table` lets through. -/
inductive Plan (ρ : Type)
  | scan
  | filter (predicate : ρ → Bool) (input : Plan ρ)
  | project (exprs : ρ → ρ) (input : Plan ρ)

def Plan.run {ρ : Type} : Plan ρ → List ρ → List ρ
  | scan, rows => rows
  | filter predicate input, rows => (input.run rows).filter predicate
  | project exprs input, rows => (input.run rows).map exprs

/-! ## The pages of the source -/

/-- A row and the page it is on. -/
structure Placed (ρ : Type) where
  block : ℕ
  row : ρ
  deriving DecidableEq

/-- The space that a row takes, and that of an empty page. -/
structure Layout (ρ : Type) where
  needed : ρ → ℕ
  emptyPage : ℕ

section Pages

variable {ρ : Type} (L : Layout ρ) (ts : List (Tuple (Placed ρ)))

/-- The tuples of one page, in the order of its slots. -/
def onPage (block : ℕ) : List (Tuple (Placed ρ)) := ts.filter (·.row.block = block)

def scanOrder (blocks : ℕ) : List (Tuple (Placed ρ)) := (List.range blocks).flatMap (onPage ts)

def hasRoom (block : ℕ) (row : ρ) : Bool :=
  ((onPage ts block).map fun v => L.needed v.row.row).sum + L.needed row ≤ L.emptyPage

/-- Where `insert_inner_pinned` puts a row: on the page of the cursor, on one after it, on one
before it, or on a new page. -/
def findBlock (blocks cursor : ℕ) (row : ρ) : ℕ :=
  let start := min cursor (blocks - 1)
  ((List.range' start (blocks - start) ++ List.range start).find? (hasRoom L ts · row)).getD blocks

end Pages

/-- How `lower_query` gets at the rows of a table: it returns each of them once, in an order of its
own. -/
structure AccessPath (ρ : Type) where
  order : List (Tuple (Placed ρ)) → List (Tuple (Placed ρ))
  perm : ∀ ts, (order ts).Perm ts

namespace AccessPath

variable {ρ : Type}

/-- In the order of the pages. -/
def seqScan : AccessPath ρ := ⟨id, fun _ => .rfl⟩

/-- In the order of the key. -/
def indexScan (key : ρ → ℤ) : AccessPath ρ where
  order ts := ts.insertionSort fun v w => key v.row.row ≤ key w.row.row
  perm ts := List.perm_insertionSort _ ts

end AccessPath

/-! ## Histories -/

inductive Job
  | idle
  /-- `insert_batch`, with its cursor and the number of pages it knows of -/
  | inserting (cursor blockCount : ℕ)
  /-- committed, with the maintenance still to begin -/
  | due
  | begun
  /-- `materialized_rows` has been loaded -/
  | loaded (offset : ℕ)
  /-- so many rows are in the view -/
  | filled (rows : ℕ)
  /-- committed, with the rows still to be counted -/
  | counting (rows : ℕ)
  deriving DecidableEq

structure State (ρ : Type) where
  txn : Timeline.State := {}
  source : List (Tuple (Placed ρ)) := []
  /-- the pages of the source -/
  blocks : ℕ := 0
  insertCursor : ℕ := 0
  view : List (Tuple ρ) := []
  materializedRows : ℕ := 0
  job : ℕ → Job := fun _ => .idle

inductive Act (ρ : Type)
  | txn (a : Timeline.Act)
  /-- COMMIT, or the end of a statement that is its own transaction -/
  | commit (x : ℕ) (autocommit : Bool)
  | insertBatch (x : ℕ)
  /-- the next row of the batch, or the next page for it -/
  | fill (x : ℕ) (row : ρ)
  | finish (x : ℕ)
  /-- ON CONFLICT DO UPDATE at the tuple `n` -/
  | update (x n : ℕ) (hot : Bool) (row : ρ)
  /-- the maintenance that is due after `x` begins, with the XID `m` -/
  | maintain (x m xmax : ℕ)
  | load (x : ℕ)
  | materialize (x : ℕ) (path : AccessPath ρ)
  | commitView (x : ℕ)
  | flush (x : ℕ)
  | clear (x n : ℕ)
  | visit (x : ℕ)

section Machine

variable {ρ : Type} (L : Layout ρ) (q : Plan ρ)

namespace State

variable (s : State ρ)

def setJob (x : ℕ) (j : Job) : State ρ := { s with job := Function.update s.job x j }

/-- The rows of the source that the snapshot shows, in the order of the access path. -/
def scanSource (path : AccessPath ρ) (snapshot : Snapshot) (oracle : Oracle) : List ρ :=
  (path.order ((scanOrder s.source s.blocks).filter fun v =>
    (isVisible v.header snapshot oracle).isSeen)).map (·.row.row)

/-- The transaction has inserted into the source. -/
def wrote (x : ℕ) : Bool := s.source.any (·.header.xmin = x)

/-- The maintenance is due after every INSERT that is its own transaction, and after a COMMIT if the
source has been modified. -/
def afterCommit (x : ℕ) (autocommit : Bool) : Job :=
  if autocommit || s.wrote x then .due else .idle

/-- The batch goes on at a new page. -/
def grow (x : ℕ) : State ρ :=
  { s.setJob x (.inserting s.blocks (s.blocks + 1)) with blocks := s.blocks + 1 }

end State

/-- `INSERT` of the rows of a plan into the view. -/
def insertAll (ts : List (Tuple ρ)) (xid command : ℕ) : List ρ → List (Tuple ρ)
  | [] => ts
  | row :: rows => insertAll (insertTuple ts xid command row) xid command rows

/-- `materialize_view_delta`: the rows of the query after those that have been counted. -/
def materializeViewDelta (s : State ρ) (c : Client) (path : AccessPath ρ) (offset : ℕ) : List ρ :=
  (q.run (s.scanSource path c.handle.snapshot s.txn.mgr.status)).drop offset

/-- The steps of transactions that are no steps of this module. -/
def allowed (job : ℕ → Job) : Timeline.Act → Bool
  | .refresh x _ => job x = .idle
  | .commit _ => false
  | _ => true

/-- A ROLLBACK ends the statement, and the maintenance too. -/
def restart (job : ℕ → Job) : Timeline.Act → ℕ → Job
  | .rollback x => Function.update job x .idle
  | _ => job

def step (s : State ρ) : Act ρ → Option (State ρ)
  | .txn a =>
    if a.plain && allowed s.job a then
      (Timeline.step s.txn a).map fun t => { s with txn := t, job := restart s.job a }
    else none
  | .commit x autocommit =>
    if s.job x = .idle then
      (Timeline.step s.txn (.commit x)).map fun t =>
        { s.setJob x (s.afterCommit x autocommit) with txn := t }
    else none
  | .insertBatch x =>
    match running s.txn x, s.job x with
    | some _, .idle =>
      some (s.setJob x (.inserting (min s.insertCursor (s.blocks - 1)) s.blocks))
    | _, _ => none
  | .fill x row =>
    match running s.txn x, s.job x with
    | some c, .inserting cursor blockCount =>
      if blockCount = 0 then some (s.grow x)
      else if hasRoom L s.source cursor row then
        some { s with
          source := insertTuple s.source c.handle.writeXid c.handle.currentCommand ⟨cursor, row⟩ }
      else if L.emptyPage < L.needed row then none
      else if blockCount ≤ cursor + 1 then some (s.grow x)
      else some (s.setJob x (.inserting (cursor + 1) blockCount))
    | _, _ => none
  | .finish x =>
    match s.job x with
    | .inserting cursor _ => some { s.setJob x .idle with insertCursor := cursor }
    | _ => none
  | .update x n hot row =>
    match running s.txn x, s.job x, s.source[n]? with
    | some c, .idle, some v =>
      if writable s.txn c v.header then
        let put (block : ℕ) :=
          updateTuple s.source n v hot c.handle.writeXid c.handle.currentCommand ⟨block, row⟩
        if hot then
          if hasRoom L s.source v.row.block row then some { s with source := put v.row.block }
          else none
        else
          let block := findBlock L s.source s.blocks s.insertCursor row
          some { s with
            source := put block, blocks := max s.blocks (block + 1), insertCursor := block }
      else none
    | _, _, _ => none
  | .maintain x m xmax =>
    if s.job x = .due then
      (Timeline.step s.txn (.begin m .readCommitted xmax)).map fun t =>
        { (s.setJob x .idle).setJob m .begun with txn := t }
    else none
  | .load x =>
    if s.job x = .begun then some (s.setJob x (.loaded s.materializedRows)) else none
  | .materialize x path =>
    match running s.txn x, s.job x with
    | some c, .loaded offset =>
      let rows := materializeViewDelta q s c path offset
      some { s.setJob x (.filled rows.length) with
        view := insertAll s.view c.handle.writeXid c.handle.currentCommand rows }
    | _, _ => none
  | .commitView x =>
    match s.job x with
    | .filled rows =>
      (Timeline.step s.txn (.commit x)).map fun t => { s.setJob x (.counting rows) with txn := t }
    | _ => none
  | .flush x =>
    match s.job x with
    | .counting rows =>
      some { s.setJob x .idle with materializedRows := s.materializedRows + rows }
    | _ => none
  | .clear x n =>
    match clearing s.txn x, s.source[n]? with
    | some z, some v =>
      if v.header.xmax = z ∧ v.header.infomask.updatedInPlace = false then
        some { s with source := clearTuple s.source n v }
      else none
    | _, _ => none
  | .visit x =>
    match s.txn.nextVisit x with
    | some ((z, u), t) =>
      if u = .stamps → ∀ v ∈ s.source, v.header.xmax ≠ z then some { s with txn := s.txn.tick t }
      else none
    | none => none

def machine : Machine (State ρ) (Act ρ) where
  init := {}
  step := step L q

/-! ### What a step does -/

inductive Spec (s : State ρ) : Act ρ → State ρ → Prop
  | time {b : Timeline.Act} {t' : Timeline.State} (hb : b.plain = true)
    (hjob : allowed s.job b = true) (h : Timeline.step s.txn b = some t') :
    Spec s (.txn b) { s with txn := t', job := restart s.job b }
  | commit {x : ℕ} {autocommit : Bool} {t' : Timeline.State} (hjob : s.job x = .idle)
    (h : Timeline.step s.txn (.commit x) = some t') :
    Spec s (.commit x autocommit)
      { s.setJob x (s.afterCommit x autocommit) with txn := t' }
  | insertBatch {x : ℕ} (hjob : s.job x = .idle) : Spec s (.insertBatch x)
      (s.setJob x (.inserting (min s.insertCursor (s.blocks - 1)) s.blocks))
  | grow {x cursor blockCount : ℕ} {row : ρ} (hjob : s.job x = .inserting cursor blockCount) :
    Spec s (.fill x row) (s.grow x)
  | put {x cursor blockCount : ℕ} {row : ρ} {c : Client} (hc : s.txn.clients.lookup x = some c)
    (hp : c.phase = .running) (hjob : s.job x = .inserting cursor blockCount)
    (hblocks : blockCount ≠ 0) : Spec s (.fill x row) { s with
      source := insertTuple s.source c.handle.writeXid c.handle.currentCommand ⟨cursor, row⟩ }
  | next {x cursor blockCount : ℕ} {row : ρ} (hjob : s.job x = .inserting cursor blockCount) :
    Spec s (.fill x row) (s.setJob x (.inserting (cursor + 1) blockCount))
  | finish {x cursor blockCount : ℕ} (hjob : s.job x = .inserting cursor blockCount) :
    Spec s (.finish x) { s.setJob x .idle with insertCursor := cursor }
  | update {x n block blocks cursor : ℕ} {hot : Bool} {row : ρ} {v : Tuple (Placed ρ)} {c : Client}
    (hc : s.txn.clients.lookup x = some c) (hp : c.phase = .running)
    (hv : s.source[n]? = some v) (hw : writable s.txn c v.header = true) :
    Spec s (.update x n hot row) { s with
      source := updateTuple s.source n v hot c.handle.writeXid c.handle.currentCommand ⟨block, row⟩
      blocks := blocks
      insertCursor := cursor }
  | maintain {x m xmax : ℕ} {t' : Timeline.State} (hjob : s.job x = .due)
    (h : Timeline.step s.txn (.begin m .readCommitted xmax) = some t') : Spec s (.maintain x m xmax)
      { (s.setJob x .idle).setJob m .begun with txn := t' }
  | load {x : ℕ} (hjob : s.job x = .begun) :
    Spec s (.load x) (s.setJob x (.loaded s.materializedRows))
  | materialize {x offset : ℕ} {c : Client} {path : AccessPath ρ}
    (hc : s.txn.clients.lookup x = some c) (hp : c.phase = .running)
    (hjob : s.job x = .loaded offset) : Spec s (.materialize x path)
      { s.setJob x (.filled (materializeViewDelta q s c path offset).length) with
        view := insertAll s.view c.handle.writeXid c.handle.currentCommand
          (materializeViewDelta q s c path offset) }
  | commitView {x rows : ℕ} {t' : Timeline.State} (hjob : s.job x = .filled rows)
    (h : Timeline.step s.txn (.commit x) = some t') :
    Spec s (.commitView x) { s.setJob x (.counting rows) with txn := t' }
  | flush {x rows : ℕ} (hjob : s.job x = .counting rows) : Spec s (.flush x)
      { s.setJob x .idle with materializedRows := s.materializedRows + rows }
  | clear {x n z : ℕ} {v : Tuple (Placed ρ)} {c : Client} {todo : List (ℕ × Visit)}
    (hc : s.txn.clients.lookup x = some c) (hp : c.phase = .aborting ((z, .stamps) :: todo))
    (hv : s.source[n]? = some v) (hx : v.header.xmax = z) :
    Spec s (.clear x n) { s with source := clearTuple s.source n v }
  | visit {x : ℕ} {u : ℕ × Visit} {t' : Timeline.State} (h : s.txn.nextVisit x = some (u, t')) :
    Spec s (.visit x) { s with txn := s.txn.tick t' }

variable {L q} {s s' : State ρ} {a : Act ρ}

theorem spec_of_step (h : step L q s a = some s') : Spec q s a s' := by
  cases a with simp only [step] at h
  | txn b =>
    split_ifs at h with hb
    obtain ⟨t', ht', rfl⟩ := map_eq_some_iff.1 h
    obtain ⟨hb, hjob⟩ := (Bool.and_eq_true _ _).mp hb
    exact .time hb hjob ht'
  | commit x autocommit =>
    split_ifs at h with hjob
    obtain ⟨t', ht', rfl⟩ := map_eq_some_iff.1 h
    exact .commit hjob ht'
  | insertBatch x =>
    split at h <;> cases h
    rename_i hjob
    exact .insertBatch hjob
  | fill x row =>
    split at h
    · rename_i c cursor blockCount hrun hjob
      obtain ⟨hc, hp⟩ := running_eq_some.1 hrun
      split_ifs at h with hzero hroom hlarge hlast
      · cases h
        exact .grow hjob
      · cases h
        exact .put hc hp hjob hzero
      · cases h
        exact .grow hjob
      · cases h
        exact .next hjob
    · cases h
  | finish x =>
    split at h <;> cases h
    rename_i cursor blockCount hjob
    exact .finish hjob
  | update x n hot row =>
    split at h
    · rename_i c v hrun hjob hv
      obtain ⟨hc, hp⟩ := running_eq_some.1 hrun
      split_ifs at h with hw hhot hroom
      · cases h
        exact .update hc hp hv hw
      · cases h
        exact .update hc hp hv hw
    · cases h
  | maintain x m xmax =>
    split_ifs at h with hjob
    obtain ⟨t', ht', rfl⟩ := map_eq_some_iff.1 h
    exact .maintain hjob ht'
  | load x =>
    split_ifs at h with hjob
    cases h
    exact .load hjob
  | materialize x path =>
    split at h <;> cases h
    rename_i c offset hrun hjob
    obtain ⟨hc, hp⟩ := running_eq_some.1 hrun
    exact .materialize hc hp hjob
  | commitView x =>
    split at h
    · rename_i rows hjob
      obtain ⟨t', ht', rfl⟩ := map_eq_some_iff.1 h
      exact .commitView hjob ht'
    · cases h
  | flush x =>
    split at h <;> cases h
    rename_i rows hjob
    exact .flush hjob
  | clear x n =>
    split at h
    · rename_i z v hz hv
      obtain ⟨c, todo, hc, hp⟩ := clearing_eq_some hz
      split_ifs at h with hx
      cases h
      exact .clear hc hp hv hx.1
    · cases h
  | visit x =>
    split at h
    · rename_i z u t' hnext
      split_ifs at h with hdone
      cases h
      exact .visit hnext
    · cases h

end Machine

end UltraSql.View
