import UltraSql.Lib.FiniteMap
import UltraSql.Mvcc.Visibility
import UltraSql.Txn.Savepoint

/-!
# The transaction manager

The shared state of the transaction manager, and its operations cut where the source releases a
lock or touches an atomic: each definition of the first section is one atomic section. The second
section composes them into the operations that a session calls.

The source keeps the commit log in a concurrent map and the set of running XIDs in a set behind a
mutex. `terminateWithSubxids` holds that mutex over the flips of a whole family, and
`snapshotSection` holds it while it reads the set. The allocation of an XID, its entry in the
commit log and its entry in the running set are three separate sections.
-/

namespace UltraSql

open List SubtxnManager FiniteMap

inductive IsolationLevel
  | readCommitted
  | repeatableRead
  | serializable
  deriving DecidableEq, Repr

inductive TxnError
  | alreadyTerminated (xid : ℕ) (status : XidStatus)
  | unknown (xid : ℕ)
  deriving DecidableEq, Repr

/-- A transaction's own subtransactions, as `buildSnapshot` is given them. -/
structure OwnSubxids where
  live : List ℕ := []
  rolledBack : List ℕ := []
  deriving DecidableEq, Repr

namespace OwnSubxids

def fromSubtxn (m : SubtxnManager) : OwnSubxids :=
  { live := m.selfSubxids, rolledBack := m.rolledBack }

def isEmpty (own : OwnSubxids) : Bool := own.live.isEmpty && own.rolledBack.isEmpty

end OwnSubxids

/-- A session's handle on its transaction. -/
structure Transaction where
  xid : ℕ
  snapshot : Snapshot
  isolation : IsolationLevel
  currentCommand : ℕ
  subtxnStack : SubtxnManager
  deriving DecidableEq

namespace Transaction

variable (t : Transaction)

/-- The XID that a write carries: that of the innermost open savepoint. -/
def writeXid : ℕ := (t.subtxnStack.stack.head?.map (·.xid)).getD t.xid

/-- The subtransactions that commit with the transaction. -/
def committedSubxidFamily : List ℕ :=
  ((t.subtxnStack.mergedUp ++ t.subtxnStack.liveStackSubxids).insertionSort (· ≤ ·)).dedup

/-- `apply_own_subxids`: bring the snapshot's own-subtransaction sets up to date. -/
def applyOwnSubxids : Transaction :=
  let own := OwnSubxids.fromSubtxn t.subtxnStack
  { t with snapshot := t.snapshot.setOwnSubxids own.live own.rolledBack }

def nextCommand : Transaction :=
  { t with currentCommand := CommandId.next t.currentCommand }

/-- The part of `refresh_snapshot` for a snapshot that stays. -/
def keepSnapshot : Transaction :=
  { t with snapshot := { t.snapshot with currentCommand := t.currentCommand } }.applyOwnSubxids

theorem mem_committedSubxidFamily {t : Transaction} {x : ℕ} :
    x ∈ t.committedSubxidFamily ↔
      x ∈ t.subtxnStack.mergedUp ∨ x ∈ t.subtxnStack.liveStackSubxids := by
  rw [committedSubxidFamily, mem_dedup, mem_insertionSort, mem_append]

end Transaction

structure TransactionManager where
  nextXid : ℕ := 3
  clog : FiniteMap ℕ XidStatus := ∅
  inProgress : List ℕ := []
  snapshotXmins : FiniteMap ℕ ℕ := ∅
  subxidParent : FiniteMap ℕ ℕ := ∅

namespace TransactionManager

variable (m : TransactionManager)

/-! ## Atomic sections -/

/-- The `fetch_add` on the allocator; the XID handed out is the old `nextXid`. -/
def allocXid : TransactionManager := { m with nextXid := m.nextXid + 1 }

/-- Enter a fresh XID in the commit log. -/
def clogInsert (x : ℕ) : TransactionManager :=
  { m with clog := m.clog.insert x .inProgress }

/-- Enter a fresh XID in the running set. -/
def publish (x : ℕ) : TransactionManager :=
  { m with inProgress := m.inProgress.insert x }

def unpublish (x : ℕ) : TransactionManager :=
  { m with inProgress := m.inProgress.filter (· ≠ x) }

/-- The running XIDs that a snapshot lists: neither own nor at or above its `xmax`. -/
def foreignActive (currentXid xmax : ℕ) (own : OwnSubxids) : List ℕ :=
  m.inProgress.filter fun x =>
    !(x == currentXid) && !own.live.contains x && decide (x < xmax)

/-- The part of `build_snapshot` under the mutex of the running set; `xmax` was loaded before. -/
def snapshotSection (currentXid currentCommand xmax : ℕ) (own : OwnSubxids) : Snapshot :=
  let xip := m.foreignActive currentXid xmax own
  let snapshot := Snapshot.new (xip.min?.getD xmax) xmax currentXid currentCommand xip
  if own.isEmpty then snapshot else snapshot.setOwnSubxids own.live own.rolledBack

/-- Record the `xmin` of a transaction's snapshot as a floor of the vacuum horizon. -/
def recordFloor (x xmin : ℕ) : TransactionManager :=
  { m with snapshotXmins := m.snapshotXmins.insert x xmin }

def linkSubxid (sub parent : ℕ) : TransactionManager :=
  { m with subxidParent := m.subxidParent.insert sub parent }

def forgetSubxidParents (folded : List ℕ) : TransactionManager :=
  { m with subxidParent := folded.foldl (fun p sub => p.erase sub) m.subxidParent }

/-- Whether the commit log has `x` as running. -/
def clogInProgress (x : ℕ) : Bool :=
  m.clog.lookup x == some .inProgress

/-- The flip of one rolled-back subtransaction in the commit log. -/
def clogAbort (x : ℕ) : TransactionManager :=
  if m.clogInProgress x then { m with clog := m.clog.insert x .aborted } else m

/-- What happens to the status of a family member when its transaction ends. -/
def foldStatus (status : XidStatus) (force : Bool) : Option XidStatus → Option XidStatus
  | some st => if force || st == .inProgress then some status else some st
  | none => if force then some status else none

/-- End one member of the family. -/
def foldSubxid (parent : ℕ) (status : XidStatus) (force : Bool) (m : TransactionManager)
    (sub : ℕ) : TransactionManager :=
  if sub = parent then m
  else
    { m with
      clog :=
        match foldStatus status force (m.clog.lookup sub) with
        | some st => m.clog.insert sub st
        | none => m.clog
      inProgress := m.inProgress.filter (· ≠ sub) }

/-- End a transaction and its family under the mutex of the running set. -/
def terminateWithSubxids (parent : ℕ) (folded : List ℕ)
    (status : XidStatus) (force : Bool) : Except TxnError TransactionManager :=
  match m.clog.lookup parent with
  | none => .error (.unknown parent)
  | some .inProgress =>
    .ok (folded.foldl (foldSubxid parent status force)
      { m with
        clog := m.clog.insert parent status
        inProgress := m.inProgress.filter (· ≠ parent)
        snapshotXmins := m.snapshotXmins.erase parent })
  | some other => .error (.alreadyTerminated parent other)

/-- The status oracle of the manager. A subtransaction that still runs has its parent's status. -/
def status : Oracle := fun x =>
  if x = 2 then .frozen
  else if x = 1 then .committed
  else
    let own := (m.clog.lookup x).getD .inProgress
    if own = .inProgress then
      match m.subxidParent.lookup x with
      | some parent => if parent ≠ x then (m.clog.lookup parent).getD .inProgress else own
      | none => own
    else own

/-! ## Operations -/

/-- `build_snapshot` without a step of another thread in between. -/
def buildSnapshot (currentXid currentCommand : ℕ) (own : OwnSubxids) : Snapshot :=
  m.snapshotSection currentXid currentCommand m.nextXid own

def allocPublished : TransactionManager :=
  (m.allocXid.clogInsert m.nextXid).publish m.nextXid

/-- The rest of `begin` once the XID is in the running set and `xmax` is loaded. -/
def beginAt (xid : ℕ) (isolation : IsolationLevel) (xmax : ℕ) : TransactionManager × Transaction :=
  let snapshot := m.snapshotSection xid 0 xmax {}
  (m.recordFloor xid snapshot.xmin,
    { xid := xid, snapshot := snapshot, isolation := isolation, currentCommand := 0,
      subtxnStack := SubtxnManager.new xid })

def begin (isolation : IsolationLevel) : TransactionManager × Transaction :=
  m.allocPublished.beginAt m.nextXid isolation m.allocPublished.nextXid

/-- The rest of `begin_savepoint` once the XID is in the running set. -/
def beginSavepointAt (t : Transaction) (sub : ℕ) (name : String) :
    TransactionManager × Transaction :=
  (m.linkSubxid sub t.xid,
    { t with subtxnStack := t.subtxnStack.savepoint name sub t.currentCommand }.applyOwnSubxids)

def beginSavepoint (t : Transaction) (name : String) : TransactionManager × Transaction :=
  m.allocPublished.beginSavepointAt t m.nextXid name

/-- Abort a subtransaction in the commit log and take it out of the running set. -/
def abortIfInProgress (x : ℕ) : TransactionManager :=
  if m.clogInProgress x then (m.clogAbort x).unpublish x else m

/-- `rollback_to_savepoint` with the XID `sub` for the savepoint, which is in the running set. -/
def rollbackToSavepointAt (t : Transaction) (sub : ℕ) (name : String) :
    Except SavepointError (TransactionManager × Transaction × List ℕ) :=
  match t.subtxnStack.rollbackTo name sub with
  | .error e => .error e
  | .ok (outcome, stack) =>
    let m := m.linkSubxid outcome.newTargetXid t.xid
    let m := outcome.aborted.foldl abortIfInProgress m
    let stack := outcome.aborted.foldl SubtxnManager.recordRolledBack stack
    let m := stack.rolledBack.foldl abortIfInProgress m
    .ok (m, { t with subtxnStack := stack }.applyOwnSubxids, outcome.aborted)

def rollbackToSavepoint (t : Transaction) (name : String) :
    Except SavepointError (TransactionManager × Transaction × List ℕ) :=
  m.allocPublished.rollbackToSavepointAt t m.nextXid name

def releaseSavepoint (t : Transaction) (name : String) : Except SavepointError (ℕ × Transaction) :=
  match t.subtxnStack.release name with
  | .error e => .error e
  | .ok (sub, stack) => .ok (sub, { t with subtxnStack := stack }.applyOwnSubxids)

def commitFinalizeVisible (t : Transaction) (folded : List ℕ) :
    Except TxnError TransactionManager :=
  match m.terminateWithSubxids t.xid folded .committed false with
  | .error e => .error e
  | .ok m => .ok (m.forgetSubxidParents folded)

def abort (t : Transaction) : Except TxnError TransactionManager :=
  match m.terminateWithSubxids t.xid t.committedSubxidFamily .aborted false with
  | .error e => .error e
  | .ok m => .ok (m.forgetSubxidParents t.committedSubxidFamily)

/-- `oldest_in_progress`: the least running XID, or the next one. -/
def oldestInProgress : ℕ :=
  (m.clog.keysWhere (· == .inProgress)).min?.getD m.nextXid

/-- The minimum of the recorded floors and the oldest running XID. -/
def horizonOf (oldest : ℕ) : ℕ :=
  match m.snapshotXmins.values.min? with
  | some xmin => if xmin < oldest then xmin else oldest
  | none => oldest

/-- `vacuum_horizon` without a step of another thread in between. -/
def vacuumHorizon : ℕ := m.horizonOf m.oldestInProgress

/-! ## Specifications of the sections -/

variable {m m' : TransactionManager} {parent x : ℕ} {folded : List ℕ} {st : XidStatus}
  {force : Bool}

theorem min?_getD_le {l : List ℕ} {n : ℕ} (h : ∀ a ∈ l, a ≤ n) : l.min?.getD n ≤ n := by
  cases hmin : l.min? with
  | none => exact le_rfl
  | some a => exact h a (min?_eq_some_iff.1 hmin).1

theorem clogInProgress_iff : m.clogInProgress x = true ↔ m.clog.lookup x = some .inProgress := by
  simp [clogInProgress]

/-- The status of a normal XID when no subtransaction is linked to its parent. -/
theorem status_eq (hp : m.subxidParent = ∅) (h3 : 3 ≤ x) :
    m.status x = (m.clog.lookup x).getD .inProgress := by
  unfold status
  rw [if_neg (by omega), if_neg (by omega), hp]
  simp only [AList.lookup_empty]
  split_ifs <;> rfl

theorem mem_inProgress_publish {y : ℕ} :
    y ∈ (m.publish x).inProgress ↔ y = x ∨ y ∈ m.inProgress :=
  mem_insert_iff

theorem foldStatus_idem (o : Option XidStatus) :
    foldStatus st force (foldStatus st force o) = foldStatus st force o := by
  cases o <;> cases force <;> simp [foldStatus]
  split_ifs <;> simp_all

theorem lookup_foldSubxid (y : ℕ) :
    (foldSubxid parent st force m x).clog.lookup y =
      if y = x ∧ x ≠ parent then foldStatus st force (m.clog.lookup x) else m.clog.lookup y := by
  unfold foldSubxid
  by_cases hp : x = parent
  · simp [hp]
  · rw [if_neg hp]
    cases hf : foldStatus st force (m.clog.lookup x) with
    | some st' =>
      simp only [lookup_insert_eq]
      by_cases hy : y = x <;> simp [hy, hp]
    | none =>
      have hn : m.clog.lookup x = none := by
        revert hf
        cases m.clog.lookup x <;> simp [foldStatus]
        split_ifs <;> simp
      by_cases hy : y = x
      · subst hy
        simp [hp, hn]
      · simp [hy]

theorem lookup_foldl_foldSubxid (y : ℕ) :
    (folded.foldl (foldSubxid parent st force) m).clog.lookup y =
      if y ∈ folded ∧ y ≠ parent then foldStatus st force (m.clog.lookup y)
      else m.clog.lookup y := by
  induction folded generalizing m with
  | nil => simp
  | cons x folded ih =>
    rw [foldl_cons, ih, lookup_foldSubxid]
    by_cases hy : y = x
    · subst hy
      by_cases hp : y = parent
      · simp [hp]
      · by_cases hm : y ∈ folded <;> simp [hm, hp, foldStatus_idem]
    · simp [hy]

theorem mem_inProgress_foldl_foldSubxid (y : ℕ) :
    y ∈ (folded.foldl (foldSubxid parent st force) m).inProgress ↔
      y ∈ m.inProgress ∧ (y ∉ folded ∨ y = parent) := by
  induction folded generalizing m with
  | nil => simp
  | cons x folded ih =>
    rw [foldl_cons, ih]
    unfold foldSubxid
    by_cases hp : x = parent
    · subst hp
      simp only [if_true, mem_cons]
      tauto
    · simp only [hp, if_false, mem_filter, mem_cons, decide_eq_true_eq]
      have hxp : y = parent → y ≠ x := by
        rintro rfl h
        exact hp h.symm
      tauto

theorem foldl_foldSubxid_frame :
    (folded.foldl (foldSubxid parent st force) m).nextXid = m.nextXid ∧
      (folded.foldl (foldSubxid parent st force) m).snapshotXmins = m.snapshotXmins ∧
      (folded.foldl (foldSubxid parent st force) m).subxidParent = m.subxidParent := by
  induction folded generalizing m with
  | nil => simp
  | cons x folded ih =>
    rw [foldl_cons]
    obtain ⟨h₁, h₂, h₃⟩ := ih (m := foldSubxid parent st force m x)
    rw [h₁, h₂, h₃]
    unfold foldSubxid
    split_ifs <;> exact ⟨rfl, rfl, rfl⟩

/-- **What ending a transaction does.** -/
theorem terminate_ok (h : m.terminateWithSubxids parent folded st force = .ok m') :
    m.clog.lookup parent = some .inProgress ∧
      (∀ y, m'.clog.lookup y =
        if y = parent then some st
        else if y ∈ folded then foldStatus st force (m.clog.lookup y) else m.clog.lookup y) ∧
      (∀ y, y ∈ m'.inProgress ↔ y ∈ m.inProgress ∧ y ≠ parent ∧ y ∉ folded) ∧
      m'.nextXid = m.nextXid ∧ m'.snapshotXmins = m.snapshotXmins.erase parent ∧
      m'.subxidParent = m.subxidParent := by
  unfold terminateWithSubxids at h
  split at h
  · cases h
  · rename_i hp
    cases h
    refine ⟨hp, fun y => ?_, fun y => ?_, foldl_foldSubxid_frame.1, foldl_foldSubxid_frame.2.1,
      foldl_foldSubxid_frame.2.2⟩
    · rw [lookup_foldl_foldSubxid, lookup_insert_eq]
      by_cases hy : y = parent <;> simp [hy]
    · rw [mem_inProgress_foldl_foldSubxid, mem_filter, decide_eq_true_eq]
      tauto
  · cases h

theorem lookup_forgetSubxidParents (y : ℕ) :
    (m.forgetSubxidParents folded).subxidParent.lookup y =
      if y ∈ folded then none else m.subxidParent.lookup y := by
  simp only [forgetSubxidParents]
  induction folded generalizing m with
  | nil => simp
  | cons x folded ih =>
    rw [foldl_cons]
    have h := ih (m := { m with subxidParent := m.subxidParent.erase x })
    simp only at h
    rw [h, lookup_erase_eq]
    by_cases hy : y = x <;> simp [hy]

theorem mem_foreignActive {currentXid xmax : ℕ} {own : OwnSubxids} :
    x ∈ m.foreignActive currentXid xmax own ↔
      x ∈ m.inProgress ∧ x ≠ currentXid ∧ x ∉ own.live ∧ x < xmax := by
  simp only [foreignActive, mem_filter, Bool.and_eq_true, Bool.not_eq_true',
    beq_eq_false_iff_ne, contains_eq_mem, decide_eq_false_iff_not, decide_eq_true_eq]
  tauto

section SnapshotSection

variable {currentXid currentCommand xmax : ℕ} {own : OwnSubxids}

theorem snapshotSection_xmin :
    (m.snapshotSection currentXid currentCommand xmax own).xmin =
      (m.foreignActive currentXid xmax own).min?.getD xmax := by
  unfold snapshotSection
  split_ifs <;> rfl

theorem snapshotSection_xmax :
    (m.snapshotSection currentXid currentCommand xmax own).xmax = xmax := by
  unfold snapshotSection
  split_ifs <;> rfl

theorem snapshotSection_currentXid :
    (m.snapshotSection currentXid currentCommand xmax own).currentXid = currentXid := by
  unfold snapshotSection
  split_ifs <;> rfl

theorem snapshotSection_currentCommand :
    (m.snapshotSection currentXid currentCommand xmax own).currentCommand = currentCommand := by
  unfold snapshotSection
  split_ifs <;> rfl

theorem mem_xip_snapshotSection :
    x ∈ (m.snapshotSection currentXid currentCommand xmax own).xip ↔
      x ∈ m.foreignActive currentXid xmax own := by
  unfold snapshotSection
  split_ifs <;> exact mem_insertionSort _

theorem mem_live_snapshotSection :
    x ∈ (m.snapshotSection currentXid currentCommand xmax own).ownLiveSubxids ↔
      x ∈ own.live := by
  unfold snapshotSection
  split_ifs with h
  · have hl : own.live = [] := by
      simp only [OwnSubxids.isEmpty, Bool.and_eq_true, List.isEmpty_iff] at h
      exact h.1
    simp [Snapshot.new, hl]
  · exact Snapshot.mem_live_setOwnSubxids

theorem mem_rolledBack_snapshotSection :
    x ∈ (m.snapshotSection currentXid currentCommand xmax own).ownRolledBackSubxids ↔
      x ∈ own.rolledBack := by
  unfold snapshotSection
  split_ifs with h
  · have hl : own.rolledBack = [] := by
      simp only [OwnSubxids.isEmpty, Bool.and_eq_true, List.isEmpty_iff] at h
      exact h.2
    simp [Snapshot.new, hl]
  · exact Snapshot.mem_rolledBack_setOwnSubxids

theorem snapshotSection_xmin_le {y : ℕ} (hy : y ∈ m.foreignActive currentXid xmax own) :
    (m.snapshotSection currentXid currentCommand xmax own).xmin ≤ y := by
  rw [snapshotSection_xmin]
  exact min?_getD_le_of_mem hy

theorem snapshotSection_xmin_le_xmax :
    (m.snapshotSection currentXid currentCommand xmax own).xmin ≤ xmax := by
  rw [snapshotSection_xmin]
  exact min?_getD_le fun a ha => (mem_foreignActive.1 ha).2.2.2.le

/-- **What a snapshot treats as unresolved.** A running XID and an XID from `xmax` on are in
progress for the snapshot, or its own. -/
theorem snapshotSection_inProgress (hx : x ∈ m.inProgress ∨ xmax ≤ x) :
    (m.snapshotSection currentXid currentCommand xmax own).xidInProgress x = true ∨
      (m.snapshotSection currentXid currentCommand xmax own).isCurrentXid x = true := by
  rw [Snapshot.xidInProgress_iff, Snapshot.isCurrentXid_iff, snapshotSection_xmax,
    snapshotSection_currentXid, mem_xip_snapshotSection, mem_live_snapshotSection]
  rcases le_or_gt xmax x with hle | hlt
  · exact .inl ⟨snapshotSection_xmin_le_xmax.trans hle, .inl hle⟩
  · have hmem := hx.resolve_right (by omega)
    by_cases hcur : x = currentXid
    · exact .inr (.inl hcur)
    · by_cases hlive : x ∈ own.live
      · exact .inr (.inr hlive)
      · have hact := mem_foreignActive.2 ⟨hmem, hcur, hlive, hlt⟩
        exact .inl ⟨snapshotSection_xmin_le hact, .inr hact⟩

end SnapshotSection

/-! ## Specifications of the operations -/

theorem lookup_allocPublished (y : ℕ) :
    m.allocPublished.clog.lookup y =
      if y = m.nextXid then some .inProgress else m.clog.lookup y :=
  lookup_insert_eq _ _ _ _

theorem abortIfInProgress_spec (x : ℕ) : (m.abortIfInProgress x).nextXid = m.nextXid ∧
    (m.abortIfInProgress x).subxidParent = m.subxidParent ∧
    (m.abortIfInProgress x).snapshotXmins = m.snapshotXmins ∧
    (∀ y, (m.abortIfInProgress x).clog.lookup y =
      if y = x ∧ m.clog.lookup x = some .inProgress then some .aborted else m.clog.lookup y) ∧
    ∀ y, y ∈ (m.abortIfInProgress x).inProgress ↔
      y ∈ m.inProgress ∧ ¬ (y = x ∧ m.clog.lookup x = some .inProgress) := by
  unfold abortIfInProgress clogAbort unpublish
  by_cases hx : m.clogInProgress x = true
  · simp [hx, clogInProgress_iff.1 hx, lookup_insert_eq]
  · have hx' : m.clog.lookup x ≠ some .inProgress := fun h => hx (clogInProgress_iff.2 h)
    simp [hx, hx']

theorem foldl_abortIfInProgress (xs : List ℕ) :
    (xs.foldl abortIfInProgress m).nextXid = m.nextXid ∧
      (xs.foldl abortIfInProgress m).subxidParent = m.subxidParent ∧
      (xs.foldl abortIfInProgress m).snapshotXmins = m.snapshotXmins ∧
      (∀ y, (xs.foldl abortIfInProgress m).clog.lookup y =
        if y ∈ xs ∧ m.clog.lookup y = some .inProgress then some .aborted
        else m.clog.lookup y) ∧
      ∀ y, y ∈ (xs.foldl abortIfInProgress m).inProgress ↔
        y ∈ m.inProgress ∧ ¬ (y ∈ xs ∧ m.clog.lookup y = some .inProgress) := by
  induction xs generalizing m with
  | nil => simp
  | cons x xs ih =>
    obtain ⟨hnext, hpar, hfloor, hlook, hmem⟩ := ih (m := m.abortIfInProgress x)
    obtain ⟨hnext', hpar', hfloor', hlook', hmem'⟩ := m.abortIfInProgress_spec x
    simp only [foldl_cons, hlook, hlook', hmem, hmem']
    refine ⟨hnext.trans hnext', hpar.trans hpar', hfloor.trans hfloor', fun y => ?_, fun y => ?_⟩
    all_goals
      by_cases hy : y = x
      · subst hy
        by_cases hin : m.clog.lookup y = some .inProgress <;> simp [hin]
      · simp [hy]

variable {ab : List ℕ} {name : String} {t t' : Transaction} {sub : ℕ}

/-- **What ROLLBACK TO does** to the transaction and to the commit log. -/
theorem rollbackToSavepointAt_ok (h : m.rollbackToSavepointAt t sub name = .ok (m', t', ab)) :
    ∃ inner target outer, t.subtxnStack.stack = inner ++ target :: outer ∧ target.name = name ∧
      (∀ e ∈ inner, e.name ≠ name) ∧ t'.xid = t.xid ∧
      t'.subtxnStack.stack = { target with xid := sub } :: outer ∧
      t'.subtxnStack.mergedUp = t.subtxnStack.mergedUp.filter (· < target.xid) ∧
      (∀ y, y ∈ t'.subtxnStack.rolledBack ↔ y ∈ t.subtxnStack.rolledBack ∨
        y ∈ inner.map (·.xid) ∨ y = target.xid ∨ y ∈ t.subtxnStack.mergedUp ∧ target.xid ≤ y) ∧
      m'.nextXid = m.nextXid ∧
      ∀ y, m'.clog.lookup y =
        if y ∈ t'.subtxnStack.rolledBack ∧ m.clog.lookup y = some .inProgress then some .aborted
        else m.clog.lookup y := by
  unfold rollbackToSavepointAt at h
  split at h
  · cases h
  · rename_i o stack hroll
    cases h
    obtain ⟨inner, target, outer, hs, hn, hin, -, hab, -, hst, hmer, hrb⟩ :=
      rollbackTo_ok hroll
    obtain ⟨h₁, h₂, -, h₄⟩ := foldl_recordRolledBack (m := stack) o.aborted
    have hrolled : ∀ y, y ∈ (o.aborted.foldl recordRolledBack stack).rolledBack ↔
        y ∈ t.subtxnStack.rolledBack ∨ y ∈ o.aborted := by
      intro y
      rw [h₄, hrb]
      tauto
    rw [← foldl_append]
    refine ⟨inner, target, outer, hs, hn, hin, rfl, h₁.trans hst, h₂.trans hmer, fun y => ?_, ?_,
      fun y => ?_⟩
    · exact (hrolled y).trans (or_congr_right (hab y))
    · exact (foldl_abortIfInProgress _).1
    · rw [(foldl_abortIfInProgress _).2.2.2.1]
      refine if_congr (and_congr_left' (mem_append.trans (or_iff_right_of_imp fun hy => ?_)))
        rfl rfl
      exact (hrolled y).2 (.inr hy)

/-- What ROLLBACK TO returns, and what it does to the running set, the parent links, the floors,
the command counter and the snapshot. -/
theorem rollbackToSavepointAt_frame (h : m.rollbackToSavepointAt t sub name = .ok (m', t', ab)) :
    (∀ y ∈ ab, y ∈ t.subtxnStack.liveStackSubxids ∨ y ∈ t.subtxnStack.mergedUp) ∧
      (∀ y, y ∈ t'.subtxnStack.rolledBack ↔ y ∈ t.subtxnStack.rolledBack ∨ y ∈ ab) ∧
      (∀ y, y ∈ m'.inProgress ↔ y ∈ m.inProgress ∧
        ¬ (y ∈ t'.subtxnStack.rolledBack ∧ m.clog.lookup y = some .inProgress)) ∧
      m'.subxidParent = m.subxidParent.insert sub t.xid ∧
      m'.snapshotXmins = m.snapshotXmins ∧ t'.currentCommand = t.currentCommand ∧
      t'.snapshot = t.snapshot.setOwnSubxids t'.subtxnStack.selfSubxids
        t'.subtxnStack.rolledBack := by
  unfold rollbackToSavepointAt at h
  split at h
  · cases h
  · rename_i o stack hroll
    cases h
    obtain ⟨inner, target, outer, hs, -, -, hnew, hab, -, -, -, hrb⟩ :=
      rollbackTo_ok hroll
    obtain ⟨-, -, -, h₄⟩ := foldl_recordRolledBack (m := stack) o.aborted
    rw [← foldl_append]
    refine ⟨fun y hy => ?_, fun y => ?_, fun y => ?_, ?_, ?_, rfl, rfl⟩
    · have := (hab y).1 hy
      simp only [liveStackSubxids, hs, map_append, map_cons,
        mem_append, mem_cons]
      tauto
    · exact (h₄ y).trans (by rw [hrb]; tauto)
    · rw [(foldl_abortIfInProgress _).2.2.2.2, mem_append,
        or_iff_right_of_imp fun hy => (h₄ y).2 (.inl hy)]
      rfl
    · rw [(foldl_abortIfInProgress _).2.1, hnew]
      rfl
    · exact (foldl_abortIfInProgress _).2.2.1

/-! ## The vacuum horizon -/

theorem oldestInProgress_le (h : m.clog.lookup x = some .inProgress) : m.oldestInProgress ≤ x :=
  min?_getD_le_of_mem (mem_keysWhere.2 ⟨_, h, rfl⟩)

theorem oldestInProgress_le_next (h : ∀ x st, m.clog.lookup x = some st → x < m.nextXid) :
    m.oldestInProgress ≤ m.nextXid := by
  refine min?_getD_le fun a ha => ?_
  obtain ⟨st, hst, -⟩ := mem_keysWhere.1 ha
  exact (h a st hst).le

theorem horizonOf_eq (m : TransactionManager) (oldest : ℕ) :
    horizonOf m oldest = min (m.snapshotXmins.values.min?.getD oldest) oldest := by
  unfold horizonOf
  cases m.snapshotXmins.values.min? with
  | none => exact (min_self _).symm
  | some xmin =>
    simp only [Option.getD_some]
    split_ifs <;> omega

theorem horizonOf_le_oldest (m : TransactionManager) (oldest : ℕ) :
    horizonOf m oldest ≤ oldest := by
  rw [horizonOf_eq]
  exact min_le_right ..

theorem horizonOf_le_floor {m : TransactionManager} {x f : ℕ} (oldest : ℕ)
    (hf : m.snapshotXmins.lookup x = some f) : horizonOf m oldest ≤ f := by
  rw [horizonOf_eq]
  exact (min_le_left ..).trans (min?_getD_le_of_mem (mem_values_of_lookup hf))

end TransactionManager

end UltraSql
