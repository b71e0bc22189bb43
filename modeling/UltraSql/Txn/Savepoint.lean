import UltraSql.Mvcc.Snapshot

/-!
# The savepoint stack of a transaction

A `SubtxnManager` keeps the open savepoints of one transaction, each with the subtransaction XID
that writes under it carry, and two sets: the XIDs of released savepoints (`mergedUp`) and those
of rolled-back ones (`rolledBack`). The stack is kept innermost first, so the source's search from
the top of its vector is a search from the head here.

`rollbackTo` decides what to discard by comparing XIDs: everything on the stack above the target,
the target's own old XID, and every released XID at or above it. The target stays on the stack
under a fresh XID.
-/

namespace UltraSql

open List

structure Subtxn where
  parentXid : ℕ
  xid : ℕ
  name : String
  commandIdAtSave : ℕ
  deriving DecidableEq, Repr

inductive SavepointError
  | notFound (name : String)
  deriving DecidableEq, Repr

structure SubtxnManager where
  parentXid : ℕ
  stack : List Subtxn
  rolledBack : List ℕ
  mergedUp : List ℕ
  deriving DecidableEq, Repr

/-- What `rollbackTo` discarded, and the XID the surviving savepoint goes on with. -/
structure RollbackOutcome where
  aborted : List ℕ
  newTargetXid : ℕ
  deriving DecidableEq, Repr

namespace SubtxnManager

def new (parent : ℕ) : SubtxnManager :=
  { parentXid := parent, stack := [], rolledBack := [], mergedUp := [] }

variable (m : SubtxnManager)

/-- The entry that `savepoint` pushes. -/
def entry (name : String) (xid currentCid : ℕ) : Subtxn :=
  { parentXid := m.parentXid, xid := xid, name := name, commandIdAtSave := currentCid }

/-- Open a savepoint under the freshly allocated `xid`. -/
def savepoint (name : String) (xid currentCid : ℕ) : SubtxnManager :=
  { m with stack := m.entry name xid currentCid :: m.stack }

/-- Whether a savepoint of that name is open. -/
def isOpen (name : String) : Bool := m.stack.any (·.name == name)

/-- Roll back to the innermost savepoint of that name, which goes on under `newTargetXid`. -/
def rollbackTo (name : String) (newTargetXid : ℕ) :
    Except SavepointError (RollbackOutcome × SubtxnManager) :=
  match m.stack.dropWhile (·.name != name) with
  | [] => .error (.notFound name)
  | target :: outer =>
    let cutoff := target.xid
    let drained := (m.stack.takeWhile (·.name != name)).map (·.xid)
    -- Released savepoints at or above the cutoff were nested inside the discarded region.
    let aborted := drained ++ cutoff :: m.mergedUp.filter (cutoff ≤ ·)
    .ok ({ aborted := (aborted.insertionSort (· ≤ ·)).dedup, newTargetXid := newTargetXid },
      { m with
        stack := { target with xid := newTargetXid } :: outer
        mergedUp := m.mergedUp.filter (· < cutoff)
        rolledBack := m.rolledBack ∪ aborted })

/-- Release the innermost savepoint of that name: its entry leaves the stack, inner ones stay. -/
def release (name : String) : Except SavepointError (ℕ × SubtxnManager) :=
  match m.stack.dropWhile (·.name != name) with
  | [] => .error (.notFound name)
  | target :: outer =>
    .ok (target.xid,
      { m with
        stack := m.stack.takeWhile (·.name != name) ++ outer
        mergedUp := m.mergedUp.insert target.xid })

def liveStackSubxids : List ℕ := m.stack.map (·.xid)

/-- The subtransactions whose writes belong to the transaction itself. -/
def selfSubxids : List ℕ :=
  (m.liveStackSubxids.filter fun x => !m.rolledBack.contains x) ++
    m.mergedUp.filter fun x => !m.rolledBack.contains x

def recordRolledBack (x : ℕ) : SubtxnManager :=
  { m with rolledBack := m.rolledBack.insert x }

/-! ## Specifications -/

variable {m m' : SubtxnManager} {name : String} {x newXid : ℕ}

theorem mem_selfSubxids :
    x ∈ m.selfSubxids ↔ (x ∈ m.liveStackSubxids ∨ x ∈ m.mergedUp) ∧ x ∉ m.rolledBack := by
  simp only [selfSubxids, mem_append, mem_filter, Bool.not_eq_true',
    contains_eq_mem, decide_eq_false_iff_not]
  tauto

/-- The innermost open savepoint of a name splits the stack. -/
theorem exists_target {stack outer : List Subtxn} {target : Subtxn}
    (h : stack.dropWhile (·.name != name) = target :: outer) :
    stack = stack.takeWhile (·.name != name) ++ target :: outer ∧ target.name = name ∧
      ∀ e ∈ stack.takeWhile (·.name != name), e.name ≠ name := by
  refine ⟨?_, ?_, fun e he => ?_⟩
  · rw [← h, takeWhile_append_dropWhile]
  · have hne : stack.dropWhile (·.name != name) ≠ [] := by simp [h]
    have hhead := head_dropWhile_not (fun e : Subtxn => e.name != name) hne
    simpa [h] using hhead
  · simpa using all_eq_true.mp all_takeWhile e he

theorem rollbackTo_ok {o : RollbackOutcome} (h : m.rollbackTo name newXid = .ok (o, m')) :
    ∃ inner target outer, m.stack = inner ++ target :: outer ∧ target.name = name ∧
      (∀ e ∈ inner, e.name ≠ name) ∧ o.newTargetXid = newXid ∧
      (∀ x, x ∈ o.aborted ↔
        x ∈ inner.map (·.xid) ∨ x = target.xid ∨ x ∈ m.mergedUp ∧ target.xid ≤ x) ∧
      m'.parentXid = m.parentXid ∧ m'.stack = { target with xid := newXid } :: outer ∧
      m'.mergedUp = m.mergedUp.filter (· < target.xid) ∧
      ∀ x, x ∈ m'.rolledBack ↔ x ∈ m.rolledBack ∨ x ∈ o.aborted := by
  unfold rollbackTo at h
  split at h
  · cases h
  · rename_i target outer hd
    obtain ⟨hs, hn, hin⟩ := exists_target hd
    cases h
    refine ⟨_, target, outer, hs, hn, hin, rfl, fun x => ?_, rfl, rfl, rfl, fun x => ?_⟩
    · rw [mem_dedup, mem_insertionSort]
      simp
    · rw [mem_dedup, mem_insertionSort, mem_union_iff]

theorem release_ok (h : m.release name = .ok (x, m')) :
    ∃ inner target outer, m.stack = inner ++ target :: outer ∧ target.name = name ∧
      (∀ e ∈ inner, e.name ≠ name) ∧ x = target.xid ∧ m'.parentXid = m.parentXid ∧
      m'.stack = inner ++ outer ∧ m'.rolledBack = m.rolledBack ∧
      m'.mergedUp = m.mergedUp.insert target.xid := by
  unfold release at h
  split at h
  · cases h
  · rename_i target outer hd
    obtain ⟨hs, hn, hin⟩ := exists_target hd
    cases h
    exact ⟨_, target, outer, hs, hn, hin, rfl, rfl, rfl, rfl, rfl⟩

theorem foldl_recordRolledBack (xs : List ℕ) :
    (xs.foldl recordRolledBack m).stack = m.stack ∧
      (xs.foldl recordRolledBack m).mergedUp = m.mergedUp ∧
      (xs.foldl recordRolledBack m).parentXid = m.parentXid ∧
      ∀ y, y ∈ (xs.foldl recordRolledBack m).rolledBack ↔ y ∈ xs ∨ y ∈ m.rolledBack := by
  induction xs generalizing m with
  | nil => simp
  | cons x xs ih =>
    obtain ⟨h₁, h₂, h₃, h₄⟩ := ih (m := m.recordRolledBack x)
    rw [foldl_cons]
    refine ⟨h₁, h₂, h₃, fun y => ?_⟩
    rw [h₄, recordRolledBack, mem_insert_iff, mem_cons]
    tauto

end SubtxnManager

end UltraSql
