import UltraSql.Mvcc.Snapshot

/-!
# Tuple headers and the visibility predicate

`isVisible` is the one predicate that every heap and index read asks. It takes a tuple header, a
snapshot and an oracle for transaction statuses, and follows the source's decision tree branch by
branch.

**Theorem (`committedBefore_of_seen`).** A tuple that a snapshot sees in any form was inserted by
the snapshot's own transaction, or by one that had committed before the snapshot, or is frozen.

**Theorem (`isVisible_of_deleted`).** A tuple deleted (not updated in place) by a transaction that
committed before the snapshot is invisible, unless the snapshot's own transaction inserted it.
-/

namespace UltraSql

/-- A status oracle, as the commit log provides it. -/
abbrev Oracle := ℕ → XidStatus

/-- The bits of a tuple's information mask, those by name that visibility and the write paths
use. -/
structure InfoMask where
  updated : Bool := false
  hotUpdated : Bool := false
  frozen : Bool := false
  updatedInPlace : Bool := false
  inplaceHistory : Bool := false
  /-- the other bits -/
  rest : ℕ := 0
  deriving DecidableEq, Repr

/-- The address of a tuple: a page of a relation and a slot on it. -/
structure TupleId where
  relation : ℕ
  block : ℕ
  slot : ℕ
  deriving DecidableEq, Repr

structure TupleHeader where
  xmin : ℕ
  xmax : ℕ
  cmin : ℕ
  cmax : ℕ
  infomask : InfoMask
  ctid : TupleId
  deriving DecidableEq, Repr

namespace TupleHeader

/-- The header of a tuple just inserted at `tid`. -/
def fresh (xmin cmin : ℕ) (tid : TupleId) : TupleHeader :=
  { xmin := xmin, xmax := 0, cmin := cmin, cmax := 0, infomask := {}, ctid := tid }

/-- Stamp a deleter. A tuple whose bytes are the result of an in-place update keeps its link to
the undo log through `inplaceHistory`. -/
def markDeleted (h : TupleHeader) (xmax cmax : ℕ) : TupleHeader :=
  { h with
    xmax := xmax
    cmax := cmax
    infomask :=
      if h.infomask.updatedInPlace then
        { h.infomask with updatedInPlace := false, inplaceHistory := true }
      else h.infomask }

end TupleHeader

inductive Visibility
  | visible
  | invisible
  | deletedByOwn
  | visiblePreImage
  | visibleMaybePreImage
  deriving DecidableEq, Repr

namespace Visibility

/-- The outcomes under which a reader gets the row, in its current or an earlier form. -/
def isSeen : Visibility → Bool
  | visible | visiblePreImage | visibleMaybePreImage => true
  | invisible | deletedByOwn => false

end Visibility

/-- `x` committed, and did so before the snapshot. -/
def isCommittedBeforeSnapshot (x : ℕ) (s : Snapshot) (oracle : Oracle) : Bool :=
  if s.xidInProgress x then false else (oracle x).isCommitted

variable (h : TupleHeader)

/-- The visible outcome of a tuple whose `xmax` names a deleter. -/
def TupleHeader.visibleOutcome : Visibility :=
  if h.infomask.inplaceHistory then .visibleMaybePreImage else .visible

/-- A tuple that the snapshot's own transaction inserted. -/
def isVisibleOwn (s : Snapshot) : Visibility :=
  if s.currentCommand ≤ h.cmin then .invisible
  else if !Xid.isInvalid h.xmax && s.ownSubxidRolledBack h.xmax then
    -- The delete or update was rolled back with its savepoint.
    if h.infomask.updatedInPlace then .visiblePreImage else .visible
  else if h.infomask.updatedInPlace && s.isCurrentXid h.xmax then
    if s.currentCommand ≤ h.cmax then .visiblePreImage else .visible
  else if s.isCurrentXid h.xmax && decide (h.cmax < s.currentCommand) then .deletedByOwn
  else .visible

/-- A tuple of another transaction that committed before the snapshot. -/
def isVisibleForeign (s : Snapshot) (oracle : Oracle) : Visibility :=
  if Xid.isInvalid h.xmax then h.visibleOutcome
  else if s.ownSubxidRolledBack h.xmax then
    if h.infomask.updatedInPlace then .visiblePreImage else .visible
  else if h.infomask.updatedInPlace then
    if s.isCurrentXid h.xmax then
      if h.cmax < s.currentCommand then .visible else .visiblePreImage
    else if isCommittedBeforeSnapshot h.xmax s oracle then .visible
    else .visiblePreImage
  else if s.isCurrentXid h.xmax then
    if h.cmax < s.currentCommand then .invisible else h.visibleOutcome
  else if isCommittedBeforeSnapshot h.xmax s oracle then .invisible
  else h.visibleOutcome

/-- Whether, and in which form, the snapshot sees a tuple. -/
def isVisible (s : Snapshot) (oracle : Oracle) : Visibility :=
  if h.infomask.frozen then .visible
  else if s.ownSubxidRolledBack h.xmin then .invisible
  else if Xid.isInvalid h.xmin then .invisible
  else if s.isCurrentXid h.xmin then isVisibleOwn h s
  else if !isCommittedBeforeSnapshot h.xmin s oracle then .invisible
  else isVisibleForeign h s oracle

variable {h : TupleHeader} {s : Snapshot} {oracle : Oracle}

theorem isCommittedBeforeSnapshot_iff {x : ℕ} :
    isCommittedBeforeSnapshot x s oracle = true ↔
      s.xidInProgress x = false ∧ (oracle x).isCommitted = true := by
  unfold isCommittedBeforeSnapshot
  cases s.xidInProgress x <;> simp

/-- **What a snapshot sees is its own or committed before it.** -/
theorem committedBefore_of_seen (hv : (isVisible h s oracle).isSeen = true) :
    h.infomask.frozen = true ∨ s.isCurrentXid h.xmin = true ∨
      isCommittedBeforeSnapshot h.xmin s oracle = true := by
  unfold isVisible at hv
  split_ifs at hv with hf hr hi hc hb
  · exact .inl hf
  · cases hv
  · cases hv
  · exact .inr (.inl hc)
  · cases hv
  · exact .inr (.inr (by simpa using hb))

/-- **A delete that committed before the snapshot hides the tuple.** -/
theorem isVisible_of_deleted (hf : h.infomask.frozen = false)
    (hp : h.infomask.updatedInPlace = false) (hx : h.xmax ≠ 0)
    (hown : s.isCurrentXid h.xmin = false) (hroll : s.ownSubxidRolledBack h.xmax = false)
    (hcur : s.isCurrentXid h.xmax = false)
    (hdel : isCommittedBeforeSnapshot h.xmax s oracle = true) :
    isVisible h s oracle = .invisible := by
  unfold isVisible isVisibleForeign
  simp only [hf, hp, hown, hroll, hcur, hdel, Xid.isInvalid_iff, hx, if_false, if_true,
    Bool.false_eq_true]
  split_ifs <;> rfl

end UltraSql
