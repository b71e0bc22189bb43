import UltraSql.Lib.Threads
import UltraSql.Recovery.Startup

/-!
# Commit, two-phase commit, checkpoint and crash

The threads of the server as far as commit status is concerned. A thread runs

* transactions: XIDs are handed out, records are written under the transaction's XID or that of a
  savepoint, savepoints are rolled back, and the transaction commits, aborts or is prepared;
* the second phase of two-phase commit: `begin_resolution`, `validate_prepared`, the decision
  record, `finalise_prepared` and `finish_resolution`, whose file removal may fail;
* checkpoints from `export_clog` on: the snapshot of the commit log, the pruning of the first-LSN
  map and `truncate_below`. What comes before only yields `redo_from` and the LSN of the
  checkpoint record.

One step is one atomic section: one append to the log buffer, one update of a concurrent map, one
entry visited by an iteration over a map, one file operation. `sink.append` is two steps, the
append and `record_first_lsn`. The flip of a family in the commit log is one step. PREPARE creates
its state file and then writes it.

A crash keeps the files and a part of the log that contains the durable records, and startup runs.
It does not get past a state file that is not completely written.
-/

namespace UltraSql.Recovery

/-! ## State -/

structure Shared where
  wal : Wal Rec
  mgr : TransactionManager := {}
  firstLsn : FiniteMap ℕ ℕ := ∅
  /-- the file `clog.snapshot` -/
  snapshot : Option ClogSnapshot := none
  /-- the files in `pg_twophase` -/
  files : FiniteMap ℕ Family := ∅
  /-- those that are created and not, or not known to be, completely written -/
  torn : FiniteMap ℕ Family := ∅
  prepared : FiniteMap ℕ Family := ∅
  resolving : List ℕ := []
  /-- the end of the log that startup replayed -/
  recoveredLsn : ℕ := 0

/-- A new data directory. -/
def Shared.start : Shared := { wal := .origin .other }

inductive Decision
  | commit
  | abort
  deriving DecidableEq

def Decision.status : Decision → XidStatus
  | commit => .committed
  | abort => .aborted

def Decision.record (p : Family) : Decision → Rec
  | commit => .commit p.xid p.subs
  | abort => .abort p.xid p.subs

namespace Shared

variable (s : Shared)

def append (r : Rec) : Shared := { s with wal := s.wal.append r }

/-- `record_first_lsn`: the least LSN seen for the transaction. -/
def recordFirstLsn (x lsn : ℕ) : Shared :=
  if Xid.isNormal x then
    { s with firstLsn := s.firstLsn.insert x ((s.firstLsn.lookup x).elim lsn (min · lsn)) }
  else s

/-- End a transaction in the commit log. -/
def terminate (t : Family) (status : XidStatus) (force : Bool) : Shared :=
  match s.mgr.terminateWithSubxids t.xid t.subs status force with
  | .ok m => { s with mgr := m }
  | .error _ => s

/-- `is_in_progress` of the checkpoint: an unknown XID counts as running. -/
def isInProgress (x : ℕ) : Bool := (s.mgr.clog.lookup x).getD .inProgress == .inProgress

def release (g : ℕ) : Shared := { s with resolving := s.resolving.filter (· ≠ g) }

/-- Startup after a crash. `recover_from_disk` fails on an incomplete file. -/
def crash (k : ℕ) : Option Shared :=
  if s.torn.keys = [] then
    match TransactionManager.startup (s.wal.crash k) s.snapshot s.files with
    | .ok (m, files) =>
      some
        { wal := s.wal.crash k
          mgr := m
          snapshot := s.snapshot
          files := files
          prepared := files
          recoveredLsn := (s.wal.crash k).log.length }
    | .error _ => none
  else none

end Shared

/-! ## Threads -/

inductive Pc
  | idle
  /-- in a transaction, which has written or not -/
  | active (t : Family) (wrote : Bool)
  /-- a record is appended and its LSN not yet noted as the first one -/
  | recording (t : Family) (x lsn : ℕ)
  | committing (t : Family) (lsn : ℕ)
  /-- waits for the Commit record to be durable -/
  | committed (t : Family) (lsn : ℕ)
  | aborting (x : ℕ)
  | aborted (x lsn : ℕ)
  | preparing (t : Family) (g : ℕ)
  | creating (t : Family) (g : ℕ)
  /-- the state file is created -/
  | writing (t : Family) (g : ℕ)
  /-- the state file is on disk -/
  | filed (t : Family) (g : ℕ)
  /-- `begin_resolution` has succeeded -/
  | reserved (g : ℕ) (p : Family) (d : Decision)
  | validated (g : ℕ) (p : Family) (d : Decision)
  | deciding (g : ℕ) (p : Family) (d : Decision) (lsn : ℕ)
  /-- waits for the decision record to be durable -/
  | waiting (g : ℕ) (p : Family) (d : Decision) (lsn : ℕ)
  | finalised (g : ℕ) (p : Family) (d : Decision)
  | removed (g : ℕ) (p : Family)
  | forgetting (g : ℕ) (p : Family)
  | exporting (redo lsn nextXid : ℕ) (todo : List ℕ) (entries : List (ℕ × XidStatus))
  | exported (redo : ℕ) (sn : ClogSnapshot)
  /-- the snapshot is written, or writing it failed -/
  | written (redo : ℕ) (ok : Bool)
  | pruning (redo : ℕ) (todo : List ℕ) (oldest : Option ℕ) (ok : Bool)
  | pruned (redo : ℕ) (oldest : Option ℕ)

inductive Act
  | begin
  | savepoint
  | rollbackTo (xs : List ℕ)
  | write (x : ℕ)
  | commit
  | abort (marker : Bool)
  | prepare (g : ℕ)
  | resolve (g : ℕ) (d : Decision)
  | checkpoint (redo lsn : ℕ)
  /-- an iteration over a map reaches this key -/
  | visit (x : ℕ)
  | recycle (bound : ℕ)
  /-- the next section of the call -/
  | next
  /-- the next section fails -/
  | fail
  | fsync (k : ℕ)
  | roll
  /-- a record without an XID -/
  | log

/-- The next section of a call, when it succeeds. -/
def next (s : Shared) : Pc → Option (Shared × Pc)
  | .recording t x lsn => some (s.recordFirstLsn x lsn, .active t true)
  | .committing t lsn => some (s.recordFirstLsn t.xid lsn, .committed t lsn)
  | .committed t lsn =>
    if lsn < s.wal.durable then some (s.terminate t .committed false, .idle) else none
  | .aborting x => some (s.append (.abort x []), .aborted x s.wal.nextLsn)
  | .aborted x lsn => some (s.recordFirstLsn x lsn, .idle)
  | .preparing t g =>
    if (s.prepared.lookup g).isSome then some (s, .active t true) else some (s, .creating t g)
  | .creating t g =>
    -- `create_new`
    if (s.files.lookup g).isSome ∨ (s.torn.lookup g).isSome then some (s, .active t true)
    else some ({ s with torn := s.torn.insert g t }, .writing t g)
  | .writing t g =>
    some ({ s with files := s.files.insert g t, torn := s.torn.erase g }, .filed t g)
  | .filed t g =>
    if (s.prepared.lookup g).isSome then
      some ({ s with files := s.files.erase g }, .active t true)
    else some ({ s with prepared := s.prepared.insert g t }, .idle)
  | .reserved g p d =>
    if s.mgr.clog.lookup p.xid = some .inProgress then some (s, .validated g p d)
    else some (s.release g, .idle)
  | .validated g p d => some (s.append (d.record p), .deciding g p d s.wal.nextLsn)
  | .deciding g p d lsn => some (s.recordFirstLsn p.xid lsn, .waiting g p d lsn)
  | .waiting g p d lsn =>
    if lsn < s.wal.durable then
      match s.mgr.terminateWithSubxids p.xid p.subs d.status true with
      | .ok m => some ({ s with mgr := m }, .finalised g p d)
      | .error _ =>
        match d with
        | .commit => some (s.release g, .idle)
        | .abort => none
    else none
  | .finalised g p _ => some ({ s with files := s.files.erase g }, .removed g p)
  | .removed g p => some (s.release g, .forgetting g p)
  | .forgetting g _ => some ({ s with prepared := s.prepared.erase g }, .idle)
  | .exporting redo lsn nextXid [] entries => some (s, .exported redo ⟨lsn, nextXid, entries⟩)
  | .exported redo sn => some ({ s with snapshot := some sn }, .written redo true)
  | .written redo ok => some (s, .pruning redo s.firstLsn.keys none ok)
  | .pruning redo [] oldest ok => some (s, if ok then .pruned redo oldest else .idle)
  | .idle | .active .. | .exporting _ _ _ (_ :: _) _ | .pruning _ (_ :: _) _ _ | .pruned .. => none

/-- The next section of a call, when it fails and the call returns an error. Where the server aborts
the process instead, only a crash can follow. A state file that is not completely written stays. -/
def fail (s : Shared) : Pc → Option (Shared × Pc)
  | .creating t _ | .writing t _ => some (s, .active t true)
  | .aborting _ | .pruned .. => some (s, .idle)
  | .validated g _ _ | .finalised g _ .commit => some (s.release g, .idle)
  | .exported redo _ => some (s, .written redo false)
  | _ => none

/-- An iteration over a map reaches one key: `export_clog` copies its status if that is final, and
`prune_terminal_and_oldest_active_first_lsn` drops it or takes its first LSN into account. -/
def visit (s : Shared) (x : ℕ) : Pc → Option (Shared × Pc)
  | .exporting redo lsn nextXid todo entries =>
    let entries :=
      match s.mgr.clog.lookup x with
      | some st => if st.isTerminal then (x, st) :: entries else entries
      | none => entries
    some (s, .exporting redo lsn nextXid (todo.filter (· ≠ x)) entries)
  | .pruning redo todo oldest ok =>
    match s.firstLsn.lookup x with
    | some lsn =>
      if s.isInProgress x then
        some (s, .pruning redo (todo.filter (· ≠ x)) (some (oldest.elim lsn (min · lsn))) ok)
      else
        some ({ s with firstLsn := s.firstLsn.erase x },
          .pruning redo (todo.filter (· ≠ x)) oldest ok)
    | none => some (s, .pruning redo (todo.filter (· ≠ x)) oldest ok)
  | _ => none

/-- The target of `truncate_below`. -/
def recycleTarget (redo : ℕ) (oldest : Option ℕ) (bound : ℕ) : ℕ :=
  min (oldest.elim redo (min redo)) bound

/-- The log records of the family are durable, which PREPARE waits for. -/
def familyDurable (s : Shared) (t : Family) : Bool :=
  (s.wal.log.drop s.wal.durable).all fun r => t.members.all fun x => decide (x ∉ r.names)

def step (s : Shared) (pc : Pc) : Act → Option (Shared × Pc)
  | .begin =>
    match pc with
    | .idle => some ({ s with mgr := s.mgr.allocPublished }, .active ⟨s.mgr.nextXid, []⟩ false)
    | _ => none
  | .savepoint =>
    match pc with
    | .active t wrote => some ({ s with mgr := s.mgr.allocPublished },
        .active { t with subs := s.mgr.nextXid :: t.subs } wrote)
    | _ => none
  | .rollbackTo xs =>
    match pc with
    | .active t wrote =>
      if t.xid ∉ xs ∧ xs.all (· ∈ t.subs) then
        some ({ s with mgr := xs.foldl TransactionManager.abortIfInProgress s.mgr },
          .active { t with subs := t.subs.filter (· ∉ xs) } wrote)
      else none
    | _ => none
  | .write x =>
    match pc with
    | .active t _ =>
      if x ∈ t.members then some (s.append (.data x), .recording t x s.wal.nextLsn) else none
    | _ => none
  | .commit =>
    match pc with
    | .active t true =>
      some (s.append (.commit t.xid t.subs), .committing t s.wal.nextLsn)
    | .active t false => some (s.terminate t .committed false, .idle)
    | _ => none
  | .abort marker =>
    match pc with
    | .active t _ =>
      some (s.terminate t .aborted false, if marker then .aborting t.xid else .idle)
    | _ => none
  | .prepare g =>
    match pc with
    | .active t _ => if familyDurable s t then some (s, .preparing t g) else none
    | _ => none
  | .resolve g d =>
    match pc with
    | .idle =>
      if g ∈ s.resolving then some (s, .idle)
      else
        match s.prepared.lookup g with
        | some p => some ({ s with resolving := g :: s.resolving }, .reserved g p d)
        | none => some (s, .idle)
    | _ => none
  | .checkpoint redo lsn =>
    match pc with
    | .idle =>
      if redo ≤ lsn ∧ lsn < s.wal.durable then
        some (s, .exporting redo lsn s.mgr.nextXid s.mgr.clog.keys [])
      else none
    | _ => none
  | .visit x => visit s x pc
  | .recycle bound =>
    match pc with
    | .pruned redo oldest =>
      some ({ s with wal := s.wal.truncateBelow (recycleTarget redo oldest bound) }, .idle)
    | _ => none
  | .next => next s pc
  | .fail => fail s pc
  | .fsync k => some ({ s with wal := s.wal.fsync k }, pc)
  | .roll => some ({ s with wal := s.wal.roll }, pc)
  | .log => some (s.append .other, pc)

def program : Program Shared Pc Act := ⟨step⟩

/-- `n` threads. -/
def machine (n : ℕ) : Machine (Program.State Shared Pc n) (Fin n × Act ⊕ ℕ) :=
  program.crashMachine Shared.crash n .start .idle

end UltraSql.Recovery
