import UltraSql.Heap.Row
import UltraSql.Txn.Solo

/-!
# Histories of a heap page

A page of rows that any number of transactions insert, update in place and delete. A visit of a
writer to a slot is one step, evaluated on the writer's own snapshot, and so is a visit that undoes
the writes of one XID on the page. Vacuum computes a horizon, trims the undo log below it and
certifies the page as all visible with it. A statement looks for the relation in the visibility map
when it starts. If there is none, it leaves the map alone to its end.

Next to each row the history keeps what has been written to it: who inserted it and, newest first,
every update and delete. A write that a rollback has taken out is marked as undone, and a write
whose undo record vacuum has dropped as trimmed. No step reads them, except that a statement visits
a slot once.

`Slot.expected` is what a snapshot should read: the newest write that it sees.
-/

namespace UltraSql.Heap

open Timeline (Visit)
open Savepoints (Own)

instance (t : Transaction) (y : ℕ) : Decidable (Own t y) := inferInstanceAs (Decidable (_ ∨ _))

/-! ## Writes -/

/-- Who wrote: the transaction, the XID that the write carries and the command. -/
structure Stamp where
  owner : ℕ
  xid : ℕ
  command : ℕ
  deriving DecidableEq, Repr

inductive Change
  | update (old new : Payload) (inverse : Inverse)
  | delete
  deriving DecidableEq, Repr

/-- The visit that undoes such a write. -/
def Change.visit : Change → Visit
  | update .. => .updates
  | delete => .stamps

structure Write where
  stamp : Stamp
  change : Change
  undone : Bool := false
  trimmed : Bool := false
  deriving DecidableEq, Repr

namespace Write

def isUpdate (w : Write) : Bool := w.change.visit = .updates

/-- The undo record of an update, as long as the undo log has it. -/
def record? (w : Write) : Option UndoRecord :=
  match w.change with
  | .update _ _ inverse =>
    if w.trimmed then none
    else some { writerXid := w.stamp.xid, commandId := w.stamp.command, inverse := inverse }
  | .delete => none

/-- What the row is after the write. -/
def result (w : Write) : Option Payload :=
  match w.change with
  | .update _ new _ => some new
  | .delete => none

/-- The write after a trim of the undo log. -/
def trimBelow (oldest : ℕ) (w : Write) : Write :=
  { w with trimmed := w.trimmed || decide (w.stamp.xid < oldest) }

end Write

structure Slot where
  tid : TupleId
  row : Row
  inserted : Stamp
  initial : Payload
  /-- newest first -/
  writes : List Write
  deriving DecidableEq, Repr

namespace Slot

variable (sl : Slot)

/-- The writes that no rollback has taken out. -/
def live : List Write := sl.writes.filter (!·.undone)

/-- What a reader gets who sees the writes that `seen` says. -/
def expected (seen : Stamp → Bool) : Option Payload :=
  if seen sl.inserted then
    match sl.writes.find? (seen ·.stamp) with
    | some w => w.result
    | none => some sl.initial
  else none

def last : Stamp := (sl.live.head?.map (·.stamp)).getD sl.inserted

def push (row : Row) (w : Write) : Slot := { sl with row := row, writes := w :: sl.writes }

def markUndone (p : Write → Bool) : List Write :=
  sl.writes.map fun w => if p w then { w with undone := true } else w

/-- The row has a record that a visit for the updates of `z` restores. -/
def touched (z : ℕ) : Bool := sl.row.undo.any (·.writerXid = z)

/-- A visit for the updates of `z`. It clears the header, so that the stamps of deletes that are
to be undone as well are gone with it. -/
def undoUpdates (z : ℕ) (todo : List (ℕ × Visit)) : Slot :=
  { sl with
    row := sl.row.rollbackUpdates z
    writes :=
      if sl.touched z then
        sl.markUndone fun w => w.stamp.xid = z ∨ w.change = .delete ∧ (w.stamp.xid, .stamps) ∈ todo
      else sl.writes }

/-- A visit for the delete stamps of `z`. -/
def undoStamps (z : ℕ) : Slot :=
  { sl with
    row := sl.row.rollbackStamps z sl.tid
    writes := sl.markUndone fun w => w.stamp.xid = z ∧ w.change = .delete }

def undo (v : ℕ × Visit) (todo : List (ℕ × Visit)) : Slot :=
  match v.2 with
  | .updates => sl.undoUpdates v.1 todo
  | .stamps => sl.undoStamps v.1

def trim (oldest : ℕ) : Slot :=
  { sl with
    row := sl.row.trimBelow oldest
    writes := sl.writes.map (Write.trimBelow oldest) }

end Slot

/-! ## All-visible certification -/

/-- `xmin_all_visible` -/
def xminAllVisible (xmin oldest : ℕ) (oracle : Oracle) : Bool :=
  xmin == 2 || (decide (xmin < oldest) && (oracle xmin).isCommitted)

/-- `xmax_all_visible` -/
def xmaxAllVisible (xmax : ℕ) (mask : InfoMask) (oldest : ℕ) (oracle : Oracle) : Bool :=
  Xid.isInvalid xmax ||
    (decide (xmax < oldest) &&
      ((oracle xmax).isAborted || (mask.updatedInPlace && (oracle xmax).isCommitted)))

/-- What `vacuum_mark_all_visible` asks of a slot. -/
def Row.allVisible (r : Row) (oldest : ℕ) (oracle : Oracle) : Bool :=
  xminAllVisible r.header.xmin oldest oracle &&
    xmaxAllVisible r.header.xmax r.header.infomask oldest oracle

/-! ## The machine -/

structure State where
  txn : Timeline.State := {}
  slots : List Slot := []
  /-- the horizons that vacuum has computed -/
  horizons : List ℕ := []
  /-- the page's bit in the visibility map -/
  allVisible : Bool := false
  /-- `contains_relation`: vacuum has certified a page of the relation -/
  mapped : Bool := false
  /-- whether the statement of a session clears bits -/
  clears : ℕ → Bool := fun _ => false

inductive Act
  | txn (a : Timeline.Act)
  | insert (x : ℕ) (payload : Payload)
  /-- a statement starts. COPY in a block is not given the visibility map; an in-place statement
  looks for the relation in it. -/
  | enter (x : ℕ) (vm : Option Bool)
  | update (x i : ℕ) (form : UpdateForm) (predicate : Payload → Bool) (col : Column)
    (delta : Int32)
  | delete (x i : ℕ) (predicate : Payload → Bool)
  /-- the next visit of a session that undoes its writes -/
  | visit (x : ℕ)
  /-- `vacuum_horizon` returns, after reads at several moments -/
  | sample (oldest : ℕ)
  /-- `vacuum_undo_log` -/
  | trim (oldest : ℕ)
  /-- `vacuum_mark_all_visible` -/
  | mark (oldest : ℕ)
  /-- it certifies another page of the relation -/
  | markElsewhere

/-- The session that writes. -/
def Act.writer : Act → Option ℕ
  | .insert x _ | .update x .. | .delete x .. => some x
  | _ => none

/-- What the snapshot of `x`, at the command `k`, sees of a write: its own writes of earlier
commands that are not rolled back, and those of transactions that committed before the snapshot. -/
def sees (t : Timeline.State) (x k : ℕ) (st : Stamp) : Bool :=
  match t.clients.lookup x, t.clients.lookup st.owner with
  | some c, some d =>
    if st.owner = x then decide (Own c.handle st.xid) && decide (st.command < k)
    else
      decide (d.phase = .committed) && decide (Own d.handle st.xid) &&
        match t.ended st.owner with
        | some e => decide (e < c.view)
        | none => false
  | _, _ => false

namespace State

variable (s : State)

/-- The client `x` if it is between statements. -/
def running (x : ℕ) : Option Timeline.Client :=
  (s.txn.clients.lookup x).filter (·.phase = .running)

/-- A visit of the running statement of `x` to a slot. A statement visits a slot once. -/
def statement (x i : ℕ) (f : Timeline.Client → Slot → Except WriteError (Option Row) × Change) :
    Option State :=
  match s.running x, s.slots[i]? with
  | some c, some sl =>
    if (sl.inserted.owner = x → sl.inserted.command < c.handle.currentCommand) ∧
        ∀ w ∈ sl.writes, w.stamp.owner = x → w.stamp.command < c.handle.currentCommand then
      match f c sl with
      | (.ok (some row), change) =>
        let stamp : Stamp := ⟨x, c.handle.writeXid, c.handle.currentCommand⟩
        some { s with
          slots := s.slots.set i (sl.push row { stamp := stamp, change := change })
          allVisible := s.allVisible && !s.clears x }
      | _ => some s
    else none
  | _, _ => none

end State

/-- The new bytes of a row. -/
def updated (r : Row) (col : Column) (delta : Int32) : Payload :=
  (r.payload.checkedAdd col delta).getD r.payload

def step (s : State) : Act → Option State
  | .txn a => (Timeline.step s.txn a).map fun t => { s with txn := t }
  | .insert x payload =>
    match s.running x with
    | some c =>
      let tid : TupleId := { relation := 0, block := 0, slot := s.slots.length }
      let xid := c.handle.writeXid
      let command := c.handle.currentCommand
      some { s with
        slots := s.slots ++
          [{ tid := tid
             row := { header := .fresh xid command tid, payload := payload, undo := [] }
             inserted := ⟨x, xid, command⟩
             initial := payload
             writes := [] }]
        allVisible := s.allVisible && !s.clears x }
    | none => none
  | .enter x vm => some { s with clears := Function.update s.clears x (vm.getD s.mapped) }
  | .update x i form predicate col delta => s.statement x i fun c sl =>
    (sl.row.update form c.handle.snapshot s.txn.mgr.status predicate col delta c.handle.writeXid
        c.handle.currentCommand,
      .update sl.row.payload (updated sl.row col delta) (form.inverse sl.row.payload col delta))
  | .delete x i predicate => s.statement x i fun c sl =>
    (sl.row.delete c.handle.snapshot s.txn.mgr.status predicate c.handle.writeXid
        c.handle.currentCommand, .delete)
  | .visit x =>
    match s.txn.nextVisit x with
    | some (v, t) =>
      let todo :=
        match t.clients.lookup x with
        | some c => c.phase.todo
        | none => []
      some { s with txn := s.txn.tick t, slots := s.slots.map (·.undo v todo) }
    | none => none
  | .sample oldest => some { s with horizons := oldest :: s.horizons }
  | .trim oldest =>
    if oldest ∈ s.horizons then some { s with slots := s.slots.map (·.trim oldest) } else none
  | .mark oldest =>
    if oldest ∈ s.horizons then
      let all := s.slots.all (·.row.allVisible oldest s.txn.mgr.status)
      some { s with allVisible := all, mapped := s.mapped || all }
    else none
  | .markElsewhere => some { s with mapped := true }

def machine : Machine State Act where
  init := {}
  step := step

/-- A transaction begins. -/
def opening (x : ℕ) (isolation : IsolationLevel) : List Act :=
  (Timeline.opening x isolation).map .txn

/-- An XID for a savepoint is taken. -/
def newXid (x : ℕ) : List Act := [.txn .allocate, .txn (.publish x)]

/-- A committed row. -/
def committedRow : List Act :=
  opening 3 .readCommitted ++ [.insert 3 { id := 1, val := 10 }, .txn (.commit 3)]

/-- A committed row that the transaction 4 updates twice, the second time under a savepoint to which
it then rolls back. -/
def restoredUpdate : List Act :=
  committedRow ++ opening 4 .readCommitted ++
    [.enter 4 none, .update 4 0 .tid (fun _ => true) .val 5, .txn (.refresh 4 5)] ++ newXid 5 ++
    [.txn (.savepoint 4 5 "a"), .update 4 0 (.range 0) (fun _ => true) .val 7] ++ newXid 6 ++
    [.txn (.rollbackTo 4 6 "a"), .visit 4, .visit 4]

end UltraSql.Heap
