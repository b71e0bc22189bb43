import UltraSql.Lib.Threads
import UltraSql.Txn.Manager

/-!
# Sessions on one transaction manager

Every thread runs either one transaction or one call of `vacuum_horizon`. `Pc` says where the
thread is: between two constructors lies exactly one atomic section of the manager, so an
interleaving of threads is an interleaving of those sections.

* `begin`, `begin_savepoint` and `rollback_to_savepoint` allocate an XID, enter it in the commit
  log and enter it in the running set, in three sections.
* `build_snapshot` loads `next_xid` and then, in a second section, reads the running set. `begin`
  and a READ COMMITTED refresh record the snapshot's `xmin` as a floor in a third.
* `commit_finalize_visible` and `abort` end the family in one section.
* `vacuum_horizon` walks the commit log shard by shard, holding one shard's lock at a time, then
  reads the floors.

The shared state also has the rows of a heap, so that the meaning of the horizon can be stated,
and two ghosts: every snapshot ever built with the XIDs that committed after it (`taken`), and the
horizon that the last section returned (`returning`). The XIDs that a thread allocated are a ghost
of the thread (`family`).
-/

namespace UltraSql.Sessions

/-- How the commit log's map spreads its keys over shards. -/
structure Sharding where
  count : ℕ
  shardOf : ℕ → Fin count

variable (sh : Sharding)

/-- What an XID is being allocated for. -/
inductive AllocFor
  | begin (isolation : IsolationLevel)
  | savepoint (t : Transaction) (name : String)
  | rollback (t : Transaction) (name : String)

/-- What a snapshot is being built for. -/
inductive SnapshotFor
  | begin (isolation : IsolationLevel) (xid : ℕ)
  | refresh (t : Transaction)
  | statement (t : Transaction) (withSubxids : Bool)

inductive Pc
  | idle
  | alloc (k : AllocFor) (x : ℕ)
  | clogged (k : AllocFor) (x : ℕ)
  | published (k : AllocFor) (x : ℕ)
  | xmax (k : SnapshotFor) (xmax : ℕ)
  | floor (t : Transaction)
  | running (t : Transaction)
  | aborting (t : Transaction) (todo : List ℕ)
  | unpublishing (t : Transaction) (x : ℕ) (todo : List ℕ)
  | ending (folded : List ℕ)
  | ended
  | walking (todo : List (Fin sh.count)) (oldest : Option ℕ) (start : List ℕ)
  | walked (oldest : ℕ) (start : List ℕ)
  | returned (horizon : ℕ)

structure Thread where
  pc : Pc sh
  family : List ℕ

structure Shared where
  mgr : TransactionManager := {}
  rows : List TupleHeader := []
  taken : List (Snapshot × List ℕ) := []
  returning : Option ℕ := none

/-- No horizon is being returned. -/
def Shared.clear (s : Shared) : Shared := { s with returning := none }

@[simp] theorem Shared.clear_mgr (s : Shared) : s.clear.mgr = s.mgr := rfl

inductive Act
  | allocBegin (isolation : IsolationLevel)
  | allocSavepoint (name : String)
  | allocRollback (name : String)
  | clogInsert
  | publish
  | pushSavepoint
  | restamp
  | loadXmaxBegin
  | loadXmaxRefresh
  | loadXmaxStatement (withSubxids : Bool)
  | snapshotSection
  | recordFloor
  | refreshFrozen
  | release (name : String)
  | clogAbort
  | unpublish
  | rollbackDone
  | commit
  | abort
  | forget
  | insertRow (tid : TupleId)
  | deleteRow (k : ℕ)
  | walkStart
  | walkShard
  | walkDone
  | readFloors
  deriving DecidableEq

variable {sh}

/-- The snapshot that the critical section of `build_snapshot` returns. -/
def SnapshotFor.take (m : TransactionManager) (xmax : ℕ) : SnapshotFor → Snapshot
  | begin _ x => m.snapshotSection x 0 xmax {}
  | refresh t => m.snapshotSection t.xid t.currentCommand xmax (.fromSubtxn t.subtxnStack)
  | statement t withSubxids =>
    m.snapshotSection t.xid t.currentCommand xmax
      (if withSubxids then .fromSubtxn t.subtxnStack else {})

/-- Where a thread goes with the snapshot it built. -/
def SnapshotFor.next (s : Snapshot) : SnapshotFor → Pc sh
  | begin isolation x =>
    .floor
      { xid := x, snapshot := s, isolation := isolation, currentCommand := 0,
        subtxnStack := SubtxnManager.new x }
  | refresh t => .floor { t with snapshot := s }
  | statement t _ => .running t

/-- The XIDs that the end of `t` flips to committed. -/
def committedNow (m : TransactionManager) (t : Transaction) : List ℕ :=
  (t.xid :: t.committedSubxidFamily).filter m.clogInProgress

/-- The smaller of two running XIDs seen by a walk. -/
def minOption (a b : Option ℕ) : Option ℕ :=
  match a, b with
  | some a, some b => some (min a b)
  | some a, none => some a
  | none, b => b

/-- The running XIDs in one shard of the commit log. -/
def shardInProgress (m : TransactionManager) (k : Fin sh.count) : List ℕ :=
  (m.clog.keysWhere (·.isInProgress)).filter fun x => sh.shardOf x = k

/-- The state of a thread that has allocated `next_xid`. -/
def allocStep (s : Shared) (l : Thread sh) (k : AllocFor) : Shared × Thread sh :=
  ({ s with mgr := s.mgr.allocXid },
    { pc := .alloc k s.mgr.nextXid, family := s.mgr.nextXid :: l.family })

def sectionStep (s : Shared) (l : Thread sh) : Act → Option (Shared × Thread sh)
  | .allocBegin isolation =>
    match l.pc with
    | .idle => some (allocStep s l (.begin isolation))
    | _ => none
  | .allocSavepoint name =>
    match l.pc with
    | .running t => some (allocStep s l (.savepoint t name))
    | _ => none
  | .allocRollback name =>
    match l.pc with
    | .running t =>
      if t.subtxnStack.isOpen name then some (allocStep s l (.rollback t name)) else none
    | _ => none
  | .clogInsert =>
    match l.pc with
    | .alloc k x => some ({ s with mgr := s.mgr.clogInsert x }, { l with pc := .clogged k x })
    | _ => none
  | .publish =>
    match l.pc with
    | .clogged k x => some ({ s with mgr := s.mgr.publish x }, { l with pc := .published k x })
    | _ => none
  | .pushSavepoint =>
    match l.pc with
    | .published (.savepoint t name) x =>
      some ({ s with mgr := s.mgr.linkSubxid x t.xid },
        { l with pc := .running (s.mgr.beginSavepointAt t x name).2 })
    | _ => none
  | .restamp =>
    match l.pc with
    | .published (.rollback t name) x =>
      match t.subtxnStack.rollbackTo name x with
      | .ok (outcome, stack) =>
        let stack := outcome.aborted.foldl SubtxnManager.recordRolledBack stack
        some ({ s with mgr := s.mgr.linkSubxid x t.xid },
          { l with
            pc := .aborting { t with subtxnStack := stack } (outcome.aborted ++ stack.rolledBack) })
      | .error _ => none
    | _ => none
  | .loadXmaxBegin =>
    match l.pc with
    | .published (.begin isolation) x =>
      some (s, { l with pc := .xmax (.begin isolation x) s.mgr.nextXid })
    | _ => none
  | .loadXmaxRefresh =>
    match l.pc with
    | .running t =>
      if t.isolation = .readCommitted then
        some (s, { l with pc := .xmax (.refresh t.nextCommand) s.mgr.nextXid })
      else none
    | _ => none
  | .loadXmaxStatement withSubxids =>
    match l.pc with
    | .running t => some (s, { l with pc := .xmax (.statement t withSubxids) s.mgr.nextXid })
    | _ => none
  | .snapshotSection =>
    match l.pc with
    | .xmax k xmax =>
      some ({ s with taken := (k.take s.mgr xmax, []) :: s.taken },
        { l with pc := k.next (k.take s.mgr xmax) })
    | _ => none
  | .recordFloor =>
    match l.pc with
    | .floor t =>
      some ({ s with mgr := s.mgr.recordFloor t.xid t.snapshot.xmin }, { l with pc := .running t })
    | _ => none
  | .refreshFrozen =>
    match l.pc with
    | .running t =>
      if t.isolation = .readCommitted then none
      else
        some (s, { l with pc := .running t.nextCommand.keepSnapshot })
    | _ => none
  | .release name =>
    match l.pc with
    | .running t =>
      match TransactionManager.releaseSavepoint t name with
      | .ok (_, t) => some (s, { l with pc := .running t })
      | .error _ => none
    | _ => none
  | .clogAbort =>
    match l.pc with
    | .aborting t (x :: todo) =>
      if s.mgr.clogInProgress x then
        some ({ s with mgr := s.mgr.clogAbort x }, { l with pc := .unpublishing t x todo })
      else some (s, { l with pc := .aborting t todo })
    | _ => none
  | .unpublish =>
    match l.pc with
    | .unpublishing t x todo =>
      some ({ s with mgr := s.mgr.unpublish x }, { l with pc := .aborting t todo })
    | _ => none
  | .rollbackDone =>
    match l.pc with
    | .aborting t [] => some (s, { l with pc := .running t.applyOwnSubxids })
    | _ => none
  | .commit =>
    match l.pc with
    | .running t =>
      match s.mgr.terminateWithSubxids t.xid t.committedSubxidFamily .committed false with
      | .ok m =>
        some
          ({ s with
              mgr := m
              taken := s.taken.map fun p => (p.1, committedNow s.mgr t ++ p.2) },
            { l with pc := .ending t.committedSubxidFamily })
      | .error _ => none
    | _ => none
  | .abort =>
    match l.pc with
    | .running t =>
      match s.mgr.terminateWithSubxids t.xid t.committedSubxidFamily .aborted false with
      | .ok m => some ({ s with mgr := m }, { l with pc := .ending t.committedSubxidFamily })
      | .error _ => none
    | _ => none
  | .forget =>
    match l.pc with
    | .ending folded =>
      some ({ s with mgr := s.mgr.forgetSubxidParents folded }, { l with pc := .ended })
    | _ => none
  | .insertRow tid =>
    match l.pc with
    | .running t =>
      some ({ s with rows := s.rows ++ [.fresh t.writeXid t.currentCommand tid] }, l)
    | _ => none
  | .deleteRow k =>
    match l.pc with
    | .running t =>
      match s.rows[k]? with
      | some h =>
        if isVisible h t.snapshot s.mgr.status = .visible then
          some ({ s with rows := s.rows.set k (h.markDeleted t.writeXid t.currentCommand) }, l)
        else none
      | none => none
    | _ => none
  | .walkStart =>
    match l.pc with
    | .idle =>
      some (s,
        { l with pc :=
            .walking (List.finRange sh.count) none (s.mgr.clog.keysWhere (·.isInProgress)) })
    | _ => none
  | .walkShard =>
    match l.pc with
    | .walking (k :: todo) oldest start =>
      some (s,
        { l with
          pc := .walking todo (minOption oldest (shardInProgress s.mgr k).min?) start })
    | _ => none
  | .walkDone =>
    match l.pc with
    | .walking [] oldest start =>
      some (s, { l with pc := .walked (oldest.getD s.mgr.nextXid) start })
    | _ => none
  | .readFloors =>
    match l.pc with
    | .walked oldest _ =>
      some ({ s with returning := some (s.mgr.horizonOf oldest) },
        { l with pc := .returned (s.mgr.horizonOf oldest) })
    | _ => none

/-- What a section does, one constructor per branch. -/
inductive SectionStep (s : Shared) (l : Thread sh) : Act → Shared → Thread sh → Prop
  | allocBegin {isolation : IsolationLevel} (hpc : l.pc = .idle) :
    SectionStep s l (.allocBegin isolation) (allocStep s l (.begin isolation)).1
      (allocStep s l (.begin isolation)).2
  | allocSavepoint {t : Transaction} {name : String} (hpc : l.pc = .running t) :
    SectionStep s l (.allocSavepoint name) (allocStep s l (.savepoint t name)).1
      (allocStep s l (.savepoint t name)).2
  | allocRollback {t : Transaction} {name : String} (hpc : l.pc = .running t)
      (hopen : t.subtxnStack.isOpen name = true) :
    SectionStep s l (.allocRollback name) (allocStep s l (.rollback t name)).1
      (allocStep s l (.rollback t name)).2
  | clogInsert {k : AllocFor} {x : ℕ} (hpc : l.pc = .alloc k x) :
    SectionStep s l .clogInsert { s with mgr := s.mgr.clogInsert x } { l with pc := .clogged k x }
  | publish {k : AllocFor} {x : ℕ} (hpc : l.pc = .clogged k x) :
    SectionStep s l .publish { s with mgr := s.mgr.publish x } { l with pc := .published k x }
  | pushSavepoint {t : Transaction} {name : String} {x : ℕ}
      (hpc : l.pc = .published (.savepoint t name) x) :
    SectionStep s l .pushSavepoint { s with mgr := s.mgr.linkSubxid x t.xid }
      { l with
        pc := .running
          { t with
            subtxnStack := t.subtxnStack.savepoint name x t.currentCommand }.applyOwnSubxids }
  | restamp {t : Transaction} {name : String} {x : ℕ} {outcome : RollbackOutcome}
      {stack : SubtxnManager} (hpc : l.pc = .published (.rollback t name) x)
      (hroll : t.subtxnStack.rollbackTo name x = .ok (outcome, stack)) :
    SectionStep s l .restamp { s with mgr := s.mgr.linkSubxid x t.xid }
      { l with
        pc := .aborting
          { t with subtxnStack := outcome.aborted.foldl SubtxnManager.recordRolledBack stack }
          (outcome.aborted ++
            (outcome.aborted.foldl SubtxnManager.recordRolledBack stack).rolledBack) }
  | loadXmaxBegin {isolation : IsolationLevel} {x : ℕ}
      (hpc : l.pc = .published (.begin isolation) x) :
    SectionStep s l .loadXmaxBegin s { l with pc := .xmax (.begin isolation x) s.mgr.nextXid }
  | loadXmaxRefresh {t : Transaction} (hpc : l.pc = .running t) :
    SectionStep s l .loadXmaxRefresh s
      { l with pc := .xmax (.refresh t.nextCommand) s.mgr.nextXid }
  | loadXmaxStatement {t : Transaction} {withSubxids : Bool} (hpc : l.pc = .running t) :
    SectionStep s l (.loadXmaxStatement withSubxids) s
      { l with pc := .xmax (.statement t withSubxids) s.mgr.nextXid }
  | snapshotSection {k : SnapshotFor} {xmax : ℕ} (hpc : l.pc = .xmax k xmax) :
    SectionStep s l .snapshotSection { s with taken := (k.take s.mgr xmax, []) :: s.taken }
      { l with pc := k.next (k.take s.mgr xmax) }
  | recordFloor {t : Transaction} (hpc : l.pc = .floor t) :
    SectionStep s l .recordFloor { s with mgr := s.mgr.recordFloor t.xid t.snapshot.xmin }
      { l with pc := .running t }
  | refreshFrozen {t : Transaction} (hpc : l.pc = .running t) :
    SectionStep s l .refreshFrozen s
      { l with pc := .running t.nextCommand.keepSnapshot }
  | release {t t' : Transaction} {name : String} {sub : ℕ} (hpc : l.pc = .running t)
      (hrel : TransactionManager.releaseSavepoint t name = .ok (sub, t')) :
    SectionStep s l (.release name) s { l with pc := .running t' }
  | clogAbort {t : Transaction} {x : ℕ} {todo : List ℕ} (hpc : l.pc = .aborting t (x :: todo))
      (hx : s.mgr.clogInProgress x = true) :
    SectionStep s l .clogAbort { s with mgr := s.mgr.clogAbort x }
      { l with pc := .unpublishing t x todo }
  | clogSkip {t : Transaction} {x : ℕ} {todo : List ℕ} (hpc : l.pc = .aborting t (x :: todo)) :
    SectionStep s l .clogAbort s { l with pc := .aborting t todo }
  | unpublish {t : Transaction} {x : ℕ} {todo : List ℕ} (hpc : l.pc = .unpublishing t x todo) :
    SectionStep s l .unpublish { s with mgr := s.mgr.unpublish x } { l with pc := .aborting t todo }
  | rollbackDone {t : Transaction} (hpc : l.pc = .aborting t []) :
    SectionStep s l .rollbackDone s { l with pc := .running t.applyOwnSubxids }
  | commit {t : Transaction} {m : TransactionManager} (hpc : l.pc = .running t)
      (hend : s.mgr.terminateWithSubxids t.xid t.committedSubxidFamily .committed false = .ok m) :
    SectionStep s l .commit
      { s with
        mgr := m
        taken := s.taken.map fun p => (p.1, committedNow s.mgr t ++ p.2) }
      { l with pc := .ending t.committedSubxidFamily }
  | abort {t : Transaction} {m : TransactionManager} (hpc : l.pc = .running t)
      (hend : s.mgr.terminateWithSubxids t.xid t.committedSubxidFamily .aborted false = .ok m) :
    SectionStep s l .abort { s with mgr := m } { l with pc := .ending t.committedSubxidFamily }
  | forget {folded : List ℕ} (hpc : l.pc = .ending folded) :
    SectionStep s l .forget { s with mgr := s.mgr.forgetSubxidParents folded }
      { l with pc := .ended }
  | insertRow {t : Transaction} {tid : TupleId} (hpc : l.pc = .running t) :
    SectionStep s l (.insertRow tid)
      { s with rows := s.rows ++ [.fresh t.writeXid t.currentCommand tid] } l
  | deleteRow {t : Transaction} {k : ℕ} {h : TupleHeader} (hpc : l.pc = .running t)
      (hrow : s.rows[k]? = some h) (hvis : isVisible h t.snapshot s.mgr.status = .visible) :
    SectionStep s l (.deleteRow k)
      { s with rows := s.rows.set k (h.markDeleted t.writeXid t.currentCommand) } l
  | walkStart (hpc : l.pc = .idle) :
    SectionStep s l .walkStart s
      { l with
        pc := .walking (List.finRange sh.count) none (s.mgr.clog.keysWhere (·.isInProgress)) }
  | walkShard {k : Fin sh.count} {todo : List (Fin sh.count)} {oldest : Option ℕ} {start : List ℕ}
      (hpc : l.pc = .walking (k :: todo) oldest start) :
    SectionStep s l .walkShard s
      { l with pc := .walking todo (minOption oldest (shardInProgress s.mgr k).min?) start }
  | walkDone {oldest : Option ℕ} {start : List ℕ} (hpc : l.pc = .walking [] oldest start) :
    SectionStep s l .walkDone s { l with pc := .walked (oldest.getD s.mgr.nextXid) start }
  | readFloors {oldest : ℕ} {start : List ℕ} (hpc : l.pc = .walked oldest start) :
    SectionStep s l .readFloors { s with returning := some (s.mgr.horizonOf oldest) }
      { l with pc := .returned (s.mgr.horizonOf oldest) }

theorem sectionStep_cases {s s' : Shared} {l l' : Thread sh} {a : Act}
    (h : sectionStep s l a = some (s', l')) : SectionStep s l a s' l' := by
  cases a <;> simp only [sectionStep] at h <;> (repeat' split at h) <;> cases h
  all_goals (constructor <;> assumption)

variable (sh)

def program : Program Shared (Thread sh) Act where
  step s l a := sectionStep s.clear l a

/-- `n` threads on a manager without history. -/
def machine (n : ℕ) : Machine (Program.State Shared (Thread sh) n) (Fin n × Act) :=
  (program sh).machine n {} { pc := .idle, family := [] }

variable {sh}

theorem machine_section {n : ℕ} {s s' : Program.State Shared (Thread sh) n} {i : Fin n} {a : Act}
    (h : (machine sh n).step s (i, a) = some s') :
    ∃ shared l, SectionStep s.shared.clear (s.loc i) a shared l ∧
      s' = { shared := shared, loc := Function.update s.loc i l } := by
  obtain ⟨shared, l, hl, rfl⟩ := Program.machine_step h
  exact ⟨shared, l, sectionStep_cases hl, rfl⟩

end UltraSql.Sessions
