import Mathlib

/-!
# Transaction identifiers, statuses and snapshots

The 64-bit transaction identifiers (XIDs) and 32-bit command numbers of the core crate are read
as natural numbers. XIDs never run out, and the command counter saturates. A `Snapshot` is what
`build_snapshot` returns: every transaction below `xmin` is resolved for it, every one from `xmax`
on is in progress, and between the two exactly those of `xip` are.

The three lists of a snapshot are searched by bisection, which is membership because they are
sorted. `Snapshot` therefore carries the sortedness, and the bound `ownSubxidLo` below which no
own subtransaction lies.
-/

namespace UltraSql

namespace Xid

/-- The largest 64-bit value, the sentinel for an empty set of subtransactions. -/
def sentinelMax : ℕ := 2 ^ 64 - 1

/-- The sentinel `INVALID`: in `xmax` it means never deleted. -/
def isInvalid (x : ℕ) : Bool := x == 0

/-- Whether `x` names a real transaction: `INVALID`, `BOOTSTRAP` and `FROZEN` are 0, 1 and 2, and
the first user transaction is 3. -/
def isNormal (x : ℕ) : Bool := 3 ≤ x

variable {x : ℕ}

@[simp] theorem isInvalid_iff : isInvalid x = true ↔ x = 0 := by
  simp [isInvalid]

@[simp] theorem isNormal_iff : isNormal x = true ↔ 3 ≤ x := by
  simp [isNormal]

end Xid

/-- `CommandId::next` -/
def CommandId.next (command : ℕ) : ℕ := min (command + 1) (2 ^ 32 - 1)

theorem CommandId.next_of_lt {command : ℕ} (h : command < 2 ^ 32 - 1) :
    CommandId.next command = command + 1 :=
  min_eq_left h

/-- The status of a transaction in the commit log. -/
inductive XidStatus
  | inProgress
  | committed
  | aborted
  | frozen
  deriving DecidableEq, Repr

namespace XidStatus

/-- The statuses that never change again. -/
def isTerminal : XidStatus → Bool
  | inProgress => false
  | _ => true

def isCommitted : XidStatus → Bool
  | committed | frozen => true
  | _ => false

def isAborted : XidStatus → Bool
  | aborted => true
  | _ => false

def isInProgress : XidStatus → Bool
  | inProgress => true
  | _ => false

end XidStatus

/-- A transaction's view of which other transactions are resolved. -/
structure Snapshot where
  xmin : ℕ
  xmax : ℕ
  currentXid : ℕ
  currentCommand : ℕ
  xip : List ℕ
  ownLiveSubxids : List ℕ
  ownRolledBackSubxids : List ℕ
  ownSubxidLo : ℕ
  xip_sorted : xip.Pairwise (· ≤ ·)
  live_sorted : ownLiveSubxids.Pairwise (· ≤ ·)
  rolledBack_sorted : ownRolledBackSubxids.Pairwise (· ≤ ·)
  lo_le_live : ∀ x ∈ ownLiveSubxids, ownSubxidLo ≤ x
  lo_le_rolledBack : ∀ x ∈ ownRolledBackSubxids, ownSubxidLo ≤ x
  deriving DecidableEq

namespace Snapshot

/-- A snapshot without own subtransactions. -/
def new (xmin xmax currentXid : ℕ) (currentCommand : ℕ) (xip : List ℕ) : Snapshot where
  xmin := xmin
  xmax := xmax
  currentXid := currentXid
  currentCommand := currentCommand
  xip := xip.insertionSort (· ≤ ·)
  ownLiveSubxids := []
  ownRolledBackSubxids := []
  ownSubxidLo := Xid.sentinelMax
  xip_sorted := List.pairwise_insertionSort _ _
  live_sorted := .nil
  rolledBack_sorted := .nil
  lo_le_live := by simp
  lo_le_rolledBack := by simp

/-- The smallest member of two sorted lists, and the sentinel when both are empty. -/
def subxidLo (live rolledBack : List ℕ) : ℕ :=
  match live.head?, rolledBack.head? with
  | some a, some b => min a b
  | some a, none => a
  | none, some b => b
  | none, none => Xid.sentinelMax

variable {x : ℕ}

theorem head_le_of_sorted {l : List ℕ} (h : l.Pairwise (· ≤ ·)) {a : ℕ} (ha : l.head? = some a)
    (hx : x ∈ l) : a ≤ x := by
  cases l with
  | nil => cases hx
  | cons b l =>
    obtain rfl : b = a := by simpa using ha
    rcases List.mem_cons.1 hx with rfl | hx
    · exact le_rfl
    · exact List.rel_of_pairwise_cons h hx

variable {live rolledBack : List ℕ}

theorem subxidLo_le_live (h : live.Pairwise (· ≤ ·)) (hx : x ∈ live) :
    subxidLo live rolledBack ≤ x := by
  cases ha : live.head? with
  | none => simp_all
  | some a =>
    have hax := head_le_of_sorted h ha hx
    cases hb : rolledBack.head? <;> simp only [subxidLo, ha, hb] <;> omega

theorem subxidLo_le_rolledBack (h : rolledBack.Pairwise (· ≤ ·)) (hx : x ∈ rolledBack) :
    subxidLo live rolledBack ≤ x := by
  cases hb : rolledBack.head? with
  | none => simp_all
  | some b =>
    have hbx := head_le_of_sorted h hb hx
    cases ha : live.head? <;> simp only [subxidLo, ha, hb] <;> omega

/-- Replace the transaction's own subtransactions, and nothing else. -/
def setOwnSubxids (s : Snapshot) (live rolledBack : List ℕ) : Snapshot :=
  { s with
    ownLiveSubxids := live.insertionSort (· ≤ ·)
    ownRolledBackSubxids := rolledBack.insertionSort (· ≤ ·)
    ownSubxidLo := subxidLo (live.insertionSort (· ≤ ·)) (rolledBack.insertionSort (· ≤ ·))
    live_sorted := List.pairwise_insertionSort _ _
    rolledBack_sorted := List.pairwise_insertionSort _ _
    lo_le_live := fun _ hx => subxidLo_le_live (List.pairwise_insertionSort _ _) hx
    lo_le_rolledBack := fun _ hx => subxidLo_le_rolledBack (List.pairwise_insertionSort _ _) hx }

/-- Whether `x` is unresolved for the snapshot. -/
def xidInProgress (s : Snapshot) (x : ℕ) : Bool :=
  if x < s.xmin then false
  else if s.xmax ≤ x then true
  else s.xip.contains x

/-- Whether `x` is the snapshot's own transaction or one of its live subtransactions. -/
def isCurrentXid (s : Snapshot) (x : ℕ) : Bool :=
  x == s.currentXid ||
    (!s.ownLiveSubxids.isEmpty && decide (s.ownSubxidLo ≤ x) && s.ownLiveSubxids.contains x)

/-- Whether `x` is one of the snapshot's own subtransactions that was rolled back. -/
def ownSubxidRolledBack (s : Snapshot) (x : ℕ) : Bool :=
  !s.ownRolledBackSubxids.isEmpty && decide (s.ownSubxidLo ≤ x) &&
    s.ownRolledBackSubxids.contains x

variable {s : Snapshot} {x : ℕ}

theorem xidInProgress_iff :
    s.xidInProgress x = true ↔ s.xmin ≤ x ∧ (s.xmax ≤ x ∨ x ∈ s.xip) := by
  unfold xidInProgress
  split_ifs with h₁ h₂
  · simp only [false_iff, not_and]
    omega
  · simp only [true_iff]
    exact ⟨by omega, .inl h₂⟩
  · simp only [List.contains_iff_mem]
    exact ⟨fun h => ⟨by omega, .inr h⟩, fun h => h.2.resolve_left h₂⟩

theorem isCurrentXid_iff :
    s.isCurrentXid x = true ↔ x = s.currentXid ∨ x ∈ s.ownLiveSubxids := by
  simp only [isCurrentXid, Bool.or_eq_true, beq_iff_eq, Bool.and_eq_true, decide_eq_true_eq,
    List.contains_iff_mem, Bool.not_eq_true', List.isEmpty_eq_false_iff]
  constructor
  · rintro (h | ⟨-, h⟩)
    · exact .inl h
    · exact .inr h
  · rintro (h | h)
    · exact .inl h
    · exact .inr ⟨⟨List.ne_nil_of_mem h, s.lo_le_live x h⟩, h⟩

theorem ownSubxidRolledBack_iff :
    s.ownSubxidRolledBack x = true ↔ x ∈ s.ownRolledBackSubxids := by
  simp only [ownSubxidRolledBack, Bool.and_eq_true, decide_eq_true_eq, List.contains_iff_mem,
    Bool.not_eq_true', List.isEmpty_eq_false_iff]
  constructor
  · rintro ⟨-, h⟩
    exact h
  · intro h
    exact ⟨⟨List.ne_nil_of_mem h, s.lo_le_rolledBack x h⟩, h⟩

@[simp] theorem mem_live_setOwnSubxids :
    x ∈ (s.setOwnSubxids live rolledBack).ownLiveSubxids ↔ x ∈ live :=
  List.mem_insertionSort _

@[simp] theorem mem_rolledBack_setOwnSubxids :
    x ∈ (s.setOwnSubxids live rolledBack).ownRolledBackSubxids ↔ x ∈ rolledBack :=
  List.mem_insertionSort _

end Snapshot

end UltraSql
