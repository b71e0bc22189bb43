import UltraSql.Mvcc.Visibility

/-!
# Rows that are updated in place

A row of two 32-bit columns can be updated without a new version. The new bytes go into the slot,
the header is stamped with the writer, and an undo record says how to get the old bytes back: a
full record holds them, a compact one holds the number that was added to a column.

A reader combines the header and the undo log. `isVisible` says whether the slot's bytes are the
row, or the row is to be rebuilt by reversing, newest first, each record whose writer the snapshot
does not see, or there is no row.

A delete stamps the header only. `rollbackUpdates` and `rollbackStamps` are the two visits with
which a transaction that rolls back takes its writes out of a page.
-/

namespace UltraSql

namespace Heap

/-! ## Payloads -/

/-- The nine bytes of a row: the null bitmap and two columns. -/
structure Payload where
  nulls : UInt8 := 0
  id : Int32
  val : Int32
  deriving DecidableEq, Repr

/-- `target_col`: zero is the first column, everything else the second. -/
inductive Column
  | id
  | val
  deriving DecidableEq, Repr

namespace Payload

def get (p : Payload) : Column → Int32
  | .id => p.id
  | .val => p.val

def set (p : Payload) : Column → Int32 → Payload
  | .id, n => { p with id := n }
  | .val, n => { p with val := n }

/-- `i32::checked_add` and the checked subtraction of the reader: the exact result, if it fits. -/
def checked (n : ℤ) : Option Int32 :=
  if -2 ^ 31 ≤ n ∧ n < 2 ^ 31 then some (Int32.ofInt n) else none

/-- `checked_int32_pair_add` -/
def checkedAdd (p : Payload) (col : Column) (delta : Int32) : Option Payload :=
  (checked ((p.get col).toInt + delta.toInt)).map (p.set col)

/-- `reverse_one_compact_delta` -/
def reverseDelta (p : Payload) (col : Column) (delta : Int32) : Option Payload :=
  (checked ((p.get col).toInt - delta.toInt)).map (p.set col)

end Payload

/-! ## The undo log of a slot -/

/-- How an undo record gets the old bytes back. -/
inductive Inverse
  | full (old : Payload)
  | delta (col : Column) (delta : Int32)
  deriving DecidableEq, Repr

structure UndoRecord where
  writerXid : ℕ
  commandId : ℕ
  inverse : Inverse
  deriving DecidableEq, Repr

/-- `undo_writer_visible_to_snapshot` -/
def undoWriterVisible (writer command : ℕ) (s : Snapshot) (oracle : Oracle) : Bool :=
  if s.ownSubxidRolledBack writer then false
  else if s.isCurrentXid writer then decide (command < s.currentCommand)
  else if s.xidInProgress writer then false
  else (oracle writer).isCommitted

/-- The loop of `undo_pre_image_from_log` over the records of a slot, newest first. A delta that
cannot be reversed ends it without a result. -/
def undoLoop (current : Payload) (s : Snapshot) (oracle : Oracle) :
    Option Payload → List UndoRecord → Option Payload
  | pre, [] => pre
  | pre, r :: log =>
    if undoWriterVisible r.writerXid r.commandId s oracle then undoLoop current s oracle pre log
    else
      match r.inverse with
      | .full old => undoLoop current s oracle (some old) log
      | .delta col delta =>
        match (pre.getD current).reverseDelta col delta with
        | some p => undoLoop current s oracle (some p) log
        | none => none

/-- `undo_pre_image_from_log`: the row without the writes that the snapshot does not see, if there
are such writes. -/
def undoPreImage (log : List UndoRecord) (current : Payload) (s : Snapshot) (oracle : Oracle) :
    Option Payload :=
  undoLoop current s oracle none log

/-! ## Rows -/

/-- A normal slot with the active undo records about it, newest first. -/
structure Row where
  header : TupleHeader
  payload : Payload
  undo : List UndoRecord
  deriving DecidableEq, Repr

inductive WriteError
  /-- "in-place tuple has an unresolved writer", "visible tuple pre-image is unavailable" -/
  | writeConflict
  /-- "Int32 id update overflow", "Int32 value update overflow" -/
  | numericOverflow (col : Column)
  deriving DecidableEq, Repr

end Heap

namespace TupleHeader

variable (h : TupleHeader)

def stampUpdate (xid command : ℕ) : TupleHeader :=
  { h with
    xmax := xid
    cmax := command
    infomask := { h.infomask with updated := true, updatedInPlace := true } }

/-- `stamp_delete_int32_pair_header` -/
def stampDelete (xid command : ℕ) : TupleHeader :=
  { h with
    xmax := xid
    cmax := command
    infomask :=
      if h.infomask.updatedInPlace then
        { h.infomask with updated := true, updatedInPlace := false, inplaceHistory := true }
      else { h.infomask with updated := true } }

/-- The header after the undo of an in-place update. -/
def clearUpdate (retainHistory : Bool) : TupleHeader :=
  { h with
    xmax := 0
    cmax := 0
    infomask :=
      { h.infomask with
        updated := false
        updatedInPlace := false
        inplaceHistory := h.infomask.inplaceHistory || retainHistory } }

/-- The header after the undo of a delete. -/
def clearDelete (tid : TupleId) : TupleHeader :=
  { h with
    xmax := 0
    cmax := 0
    ctid := tid
    infomask :=
      { h.infomask with updated := false, hotUpdated := false, updatedInPlace := false } }

end TupleHeader

namespace Heap

/-- The visibility of a row in the range update, which keeps the last answer for a row without
`xmax`. `cmin` is that of the row which the answer is from: the key is the inserter and the mask. -/
def rangeVisibility (h : TupleHeader) (cmin : ℕ) (s : Snapshot) (oracle : Oracle) : Visibility :=
  if h.xmax = 0 ∧ h.infomask.inplaceHistory = false then
    if isVisible { h with cmin := cmin } s oracle = .visible then .visible else .invisible
  else isVisible h s oracle

/-- The two forms of the in-place update: of one row, with a full undo record, and of a range of
pages, with one compact record for the rows of a page. -/
inductive UpdateForm
  | tid
  | range (cachedCmin : ℕ)
  deriving DecidableEq, Repr

namespace UpdateForm

def visibility (form : UpdateForm) (h : TupleHeader) (s : Snapshot) (oracle : Oracle) :
    Visibility :=
  match form with
  | tid => isVisible h s oracle
  | range cmin => rangeVisibility h cmin s oracle

def inverse (form : UpdateForm) (old : Payload) (col : Column) (delta : Int32) : Inverse :=
  match form with
  | tid => .full old
  | range _ => .delta col delta

end UpdateForm

namespace Row

/-- The payload that an outcome of the visibility check prescribes. -/
def readAs (r : Row) (s : Snapshot) (oracle : Oracle) : Visibility → Option Payload
  | .visible => some r.payload
  | .visiblePreImage => undoPreImage r.undo r.payload s oracle
  | .visibleMaybePreImage => some ((undoPreImage r.undo r.payload s oracle).getD r.payload)
  | .invisible | .deletedByOwn => none

/-- What a snapshot reads from a slot. -/
def read (r : Row) (s : Snapshot) (oracle : Oracle) : Option Payload :=
  r.readAs s oracle (isVisible r.header s oracle)

/-- The visit of the in-place update to a row: the new row, or none if it is not affected. -/
def update (r : Row) (form : UpdateForm) (s : Snapshot) (oracle : Oracle)
    (predicate : Payload → Bool) (col : Column) (delta : Int32) (xid command : ℕ) :
    Except WriteError (Option Row) :=
  match form.visibility r.header s oracle with
  | .visible => act r
  | .visiblePreImage =>
    if ((undoPreImage r.undo r.payload s oracle).map predicate).getD true then
      .error .writeConflict
    else .ok none
  | .visibleMaybePreImage =>
    match undoPreImage r.undo r.payload s oracle with
    | some pre => if predicate pre then .error .writeConflict else .ok none
    | none => act r
  | .invisible | .deletedByOwn => .ok none
where
  act (r : Row) : Except WriteError (Option Row) :=
    if predicate r.payload then
      match r.payload.checkedAdd col delta with
      | none => .error (.numericOverflow col)
      | some new =>
        .ok (some
          { header := r.header.stampUpdate xid command
            payload := new
            undo := { writerXid := xid, commandId := command,
                      inverse := form.inverse r.payload col delta } :: r.undo })
    else .ok none

/-- `delete_visibility_allows_current_mutation` -/
def deleteAllowed (r : Row) (s : Snapshot) (oracle : Oracle) (predicate : Payload → Bool) :
    Except WriteError Bool :=
  match isVisible r.header s oracle with
  | .visible => .ok true
  | .invisible | .deletedByOwn => .ok false
  | .visiblePreImage =>
    match undoPreImage r.undo r.payload s oracle with
    | none => .error .writeConflict
    | some pre => if predicate pre then .error .writeConflict else .ok false
  | .visibleMaybePreImage =>
    match undoPreImage r.undo r.payload s oracle with
    | none => .ok true
    | some pre => if predicate pre then .error .writeConflict else .ok false

/-- The visit of the in-place delete to a row. -/
def delete (r : Row) (s : Snapshot) (oracle : Oracle) (predicate : Payload → Bool)
    (xid command : ℕ) : Except WriteError (Option Row) :=
  match r.deleteAllowed s oracle predicate with
  | .error e => .error e
  | .ok false => .ok none
  | .ok true =>
    if predicate r.payload then
      if !Xid.isInvalid r.header.xmax && r.header.xmax != xid &&
          (oracle r.header.xmax).isInProgress then
        .error .writeConflict
      else .ok (some { r with header := r.header.stampDelete xid command })
    else .ok none

/-- The bytes after the undo of one record. -/
def restore (p : Payload) : Inverse → Payload
  | .full old => old
  | .delta col delta => p.set col (p.get col - delta)

/-- `rollback_in_place_updates` on a row: restore the records of `xid`, newest first. -/
def rollbackUpdates (xid : ℕ) (r : Row) : Row :=
  let mine := r.undo.filter (·.writerXid = xid)
  if mine.isEmpty then r
  else
    let others := r.undo.filter (·.writerXid ≠ xid)
    { header := r.header.clearUpdate !others.isEmpty
      payload := mine.foldl (fun p u => restore p u.inverse) r.payload
      undo := others }

/-- `rollback_delete_stamps` on a row. -/
def rollbackStamps (xid : ℕ) (tid : TupleId) (r : Row) : Row :=
  if r.header.xmax ≠ xid ∨ r.header.infomask.updatedInPlace then r
  else { r with header := r.header.clearDelete tid }

/-- `trim_below` on a row. -/
def trimBelow (oldest : ℕ) (r : Row) : Row :=
  { r with undo := r.undo.filter (oldest ≤ ·.writerXid) }

end Row

end Heap

end UltraSql
