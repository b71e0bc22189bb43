import UltraSql.Storage.Wal
import UltraSql.Txn.Manager

/-!
# Startup: the commit log after a crash

At startup the transaction manager is rebuilt from three durable things: the two-phase state files,
the snapshot of the commit log that the last checkpoint wrote, and the retained write-ahead log.

* `recoverPrepared` seeds every member of a prepared family as running.
* `importClog` adds the snapshot's statuses, except for XIDs that have an entry already.
* `updateCommitStatusForRecord` applies the Commit and Abort records.
* `recoverUncommittedAsAborted` aborts the XIDs of the records that have no entry by then.
* `reconcile` gives the family of each state file the status of its parent if that is decided, and
  removes the file.

**Theorem (`startup_spec`).** The status of every XID after startup, in terms of those inputs.
-/

namespace UltraSql

open List

/-- A transaction and the subtransactions that commit or abort with it. -/
structure Family where
  xid : ℕ
  subs : List ℕ := []
  deriving DecidableEq, Repr

def Family.members (p : Family) : List ℕ := p.xid :: p.subs

namespace Recovery

/-- The records that commit status depends on. `other` stands for the records that carry no XID.
The family of an `abort` is not in the log: it is noted here for the statements about ROLLBACK
PREPARED, and startup does not read it. -/
inductive Rec
  | data (xid : ℕ)
  | commit (xid : ℕ) (subs : List ℕ)
  | abort (xid : ℕ) (subs : List ℕ)
  | other
  deriving DecidableEq, Repr

namespace Rec

/-- The XID in the record's header. -/
def header : Rec → ℕ
  | data x | commit x _ | abort x _ => x
  | other => 0

/-- The XIDs that a record carries. -/
def names : Rec → List ℕ
  | data x | abort x _ => [x]
  | commit x subs => x :: subs
  | other => []

/-- The status that a record gives an XID. -/
def decision (x : ℕ) : Rec → Option XidStatus
  | commit p subs => if x ∈ p :: subs then some .committed else none
  | abort p _ => if x = p then some .aborted else none
  | data _ | other => none

end Rec

/-- What `encode_clog_snapshot` writes. -/
structure ClogSnapshot where
  lsn : ℕ
  nextXid : ℕ
  entries : List (ℕ × XidStatus)

end Recovery

namespace TransactionManager

open Recovery

variable (m : TransactionManager)

/-! ## The functions of recovery -/

/-- Advance the allocator past an XID. -/
def recoverObservedXid (x : ℕ) : TransactionManager :=
  if Xid.isNormal x then { m with nextXid := max m.nextXid (x + 1) } else m

/-- Enter a status in the commit log and take the XID out of the running set. -/
def enterStatus (st : XidStatus) (x : ℕ) : TransactionManager :=
  { m with clog := m.clog.insert x st }.unpublish x

/-- The common body of `recover_committed` and `recover_aborted`. -/
def recoverAs (st : XidStatus) (m : TransactionManager) (x : ℕ) : TransactionManager :=
  if Xid.isNormal x then (m.enterStatus st x).recoverObservedXid x else m

def recoverCommitted (x : ℕ) : TransactionManager :=
  m.recoverAs .committed x

def recoverAborted (x : ℕ) : TransactionManager := m.recoverAs .aborted x

def recoverUncommittedAsAborted (x : ℕ) : TransactionManager :=
  if Xid.isNormal x then
    (if (m.clog.lookup x).isNone then m.enterStatus .aborted x else m).recoverObservedXid x
  else m

def recoverPrepared (x : ℕ) : Except TxnError TransactionManager :=
  if Xid.isNormal x then
    match m.clog.lookup x with
    | some .inProgress => .ok ((m.publish x).recoverObservedXid x)
    | some st => .error (.alreadyTerminated x st)
    | none => .ok (((m.clogInsert x).publish x).recoverObservedXid x)
  else .ok m

def importEntry (e : ℕ × XidStatus) : TransactionManager :=
  if Xid.isNormal e.1 then
    (if e.2.isTerminal = true ∧ (m.clog.lookup e.1).isNone then m.enterStatus e.2 e.1
      else m).recoverObservedXid e.1
  else m

def importClog (nextXid : ℕ) (entries : List (ℕ × XidStatus)) : TransactionManager :=
  let m := entries.foldl importEntry m
  { m with nextXid := max m.nextXid nextXid }

/-- The effect of one record on the commit log. -/
def updateCommitStatusForRecord (r : Rec) : TransactionManager :=
  let m := m.recoverObservedXid r.header
  match r with
  | .commit x subs => subs.foldl recoverCommitted (m.recoverCommitted x)
  | .abort x _ => m.recoverAborted x
  | .data _ | .other => m

/-- A snapshot is used unless it is ahead of the recovered log. -/
def importSnapshot (recovered : ℕ) : Option ClogSnapshot → TransactionManager
  | some sn => if sn.lsn ≤ recovered then m.importClog sn.nextXid sn.entries else m
  | none => m

/-- Reconcile one state file with the outcome of its transaction. -/
def reconcile (acc : TransactionManager × FiniteMap ℕ Family) (e : Σ _ : ℕ, Family) :
    TransactionManager × FiniteMap ℕ Family :=
  match acc.1.status e.2.xid with
  | .inProgress => acc
  | .committed | .frozen => (e.2.subs.foldl recoverCommitted acc.1, acc.2.erase e.1)
  | .aborted => (e.2.subs.foldl recoverAborted acc.1, acc.2.erase e.1)

/-- The manager and the state files after startup. -/
def startup (w : Wal Rec) (snapshot : Option ClogSnapshot) (files : FiniteMap ℕ Family) :
    Except TxnError (TransactionManager × FiniteMap ℕ Family) := do
  let m ← files.values.foldlM (fun m p => p.members.foldlM recoverPrepared m) {}
  let m := m.importSnapshot w.log.length snapshot
  let m := w.replay (fun m _ r => m.updateCommitStatusForRecord r) m
  let m := w.replay (fun m _ r => m.recoverUncommittedAsAborted r.header) m
  pure (files.entries.foldl reconcile (m, files))

/-! ## What they do to the commit log -/

/-- The XIDs in the commit log are normal and handed out. -/
def Bounded : Prop :=
  ∀ y st, m.clog.lookup y = some st → 3 ≤ y ∧ y < m.nextXid

/-- A recovery step that has seen the XIDs `xs`. -/
structure Sees (xs : List ℕ) (m m' : TransactionManager) : Prop where
  parents : m'.subxidParent = m.subxidParent
  next : m.nextXid ≤ m'.nextXid
  seen : ∀ x ∈ xs, 3 ≤ x → x < m'.nextXid
  bounded : Bounded m → Bounded m'

section

variable {m m' : TransactionManager} {x y : ℕ} {xs ys : List ℕ} {st : XidStatus}

theorem Sees.refl (m : TransactionManager) : Sees [] m m := ⟨rfl, le_rfl, nofun, id⟩

theorem Sees.trans {m'' : TransactionManager} (h : Sees xs m m') (h' : Sees ys m' m'') :
    Sees (xs ++ ys) m m'' := by
  refine ⟨h'.parents.trans h.parents, h.next.trans h'.next, fun x hx h3 => ?_,
    fun hb => h'.bounded (h.bounded hb)⟩
  rcases mem_append.1 hx with hx | hx
  · exact (h.seen x hx h3).trans_le h'.next
  · exact h'.seen x hx h3

theorem Sees.mono (h : Sees xs m m') (hsub : ys ⊆ xs) : Sees ys m m' :=
  ⟨h.parents, h.next, fun x hx => h.seen x (hsub hx), h.bounded⟩

theorem clog_recoverObservedXid : (m.recoverObservedXid x).clog = m.clog := by
  unfold recoverObservedXid
  split_ifs <;> rfl

theorem lookup_enterStatus :
    (m.enterStatus st x).clog.lookup y = if y = x then some st else m.clog.lookup y :=
  FiniteMap.lookup_insert_eq _ _ _ _

variable {m₁ : TransactionManager}

/-- The XID whose entry a step makes, if any, is then seen. -/
theorem sees_recoverObservedXid (hp : m₁.subxidParent = m.subxidParent)
    (hn : m₁.nextXid = m.nextXid) (hl : ∀ y, y ≠ x → m₁.clog.lookup y = m.clog.lookup y)
    (hx : 3 ≤ x ∨ m₁.clog.lookup x = m.clog.lookup x) : Sees [x] m (m₁.recoverObservedXid x) := by
  have hbound : Bounded m → ∀ y st, m₁.clog.lookup y = some st → y ≠ x ∨ ¬ 3 ≤ x →
      3 ≤ y ∧ y < m.nextXid := by
    intro hb y st hy hyx
    by_cases hne : y = x
    · subst hne
      exact hb y st ((hx.resolve_left (hyx.resolve_left (by simp))) ▸ hy)
    · exact hb y st (hl y hne ▸ hy)
  unfold recoverObservedXid
  split_ifs with h
  · have h3 := Xid.isNormal_iff.1 h
    refine ⟨hp, hn ▸ le_max_left _ _, fun y hy _ => ?_, fun hb y st hy => ?_⟩
    · rw [mem_singleton.1 hy]
      exact lt_of_lt_of_le (Nat.lt_succ_self x) (le_max_right _ _)
    · by_cases hne : y = x
      · subst hne
        exact ⟨h3, lt_of_lt_of_le (Nat.lt_succ_self y) (le_max_right _ _)⟩
      · have := hbound hb y st hy (.inl hne)
        exact ⟨this.1, this.2.trans_le (hn ▸ le_max_left _ _)⟩
  · have h3 : ¬ 3 ≤ x := fun h3 => h (Xid.isNormal_iff.2 h3)
    refine ⟨hp, hn.ge, fun y hy hy3 => ?_, fun hb y st hy => ?_⟩
    · rw [mem_singleton.1 hy] at hy3
      exact absurd hy3 h3
    · have := hbound hb y st hy (.inr h3)
      exact ⟨this.1, this.2.trans_eq hn.symm⟩

theorem Sees.observed : Sees [x] m (m.recoverObservedXid x) :=
  sees_recoverObservedXid rfl rfl (fun _ _ => rfl) (.inr rfl)

theorem Sees.entered (h : Xid.isNormal x = true) :
    Sees [x] m ((m.enterStatus st x).recoverObservedXid x) :=
  sees_recoverObservedXid rfl rfl (fun _ hy => lookup_enterStatus.trans (if_neg hy))
    (.inl (Xid.isNormal_iff.1 h))

/-- Nothing is done for a reserved XID. -/
theorem Sees.reserved (h : ¬ Xid.isNormal x = true) : Sees [x] m m := by
  refine ⟨rfl, le_rfl, fun y hy hy3 => ?_, id⟩
  rw [mem_singleton.1 hy] at hy3
  exact absurd (Xid.isNormal_iff.2 hy3) h

theorem ne_of_reserved (h : ¬ Xid.isNormal x = true) (h3 : 3 ≤ y) : y ≠ x := by
  rintro rfl
  exact h (Xid.isNormal_iff.2 h3)

/-- A normal XID is entered under a condition and observed. -/
theorem enter_spec (st : XidStatus) (m : TransactionManager) (x : ℕ) (c : Prop) [Decidable c] :
    Sees [x] m (if Xid.isNormal x then
      (if c then m.enterStatus st x else m).recoverObservedXid x else m) ∧
      ∀ y, 3 ≤ y → (if Xid.isNormal x then
        (if c then m.enterStatus st x else m).recoverObservedXid x else m).clog.lookup y =
          if y = x ∧ c then some st else m.clog.lookup y := by
  split_ifs with h hc
  · refine ⟨.entered h, fun y _ => ?_⟩
    rw [clog_recoverObservedXid, lookup_enterStatus]
    simp [hc]
  · refine ⟨.observed, fun y _ => ?_⟩
    rw [clog_recoverObservedXid]
    simp [hc]
  · exact ⟨.reserved h, fun y h3 => by simp [ne_of_reserved h h3]⟩

theorem recoverAs_spec (st : XidStatus) (m : TransactionManager) (x : ℕ) :
    Sees [x] m (m.recoverAs st x) ∧ ∀ y, 3 ≤ y → (m.recoverAs st x).clog.lookup y =
      if y = x then some st else m.clog.lookup y := by
  have h := enter_spec st m x True
  simp only [if_true, and_true] at h
  exact h

theorem foldl_recoverAs_spec (st : XidStatus) (m : TransactionManager) (xs : List ℕ) :
    Sees xs m (xs.foldl (recoverAs st) m) ∧
      ∀ y, 3 ≤ y → (xs.foldl (recoverAs st) m).clog.lookup y =
        if y ∈ xs then some st else m.clog.lookup y := by
  induction xs generalizing m with
  | nil => exact ⟨.refl m, fun y _ => by simp⟩
  | cons x xs ih =>
    obtain ⟨hs, hl⟩ := recoverAs_spec st m x
    obtain ⟨hs', hl'⟩ := ih (m.recoverAs st x)
    refine ⟨hs.trans hs', fun y h3 => ?_⟩
    rw [foldl_cons, hl' y h3, hl y h3]
    by_cases hy : y = x <;> simp [hy]

theorem recoverUncommittedAsAborted_spec :
    Sees [x] m (m.recoverUncommittedAsAborted x) ∧ ∀ y, 3 ≤ y →
      (m.recoverUncommittedAsAborted x).clog.lookup y =
        if y = x ∧ m.clog.lookup y = none then some .aborted else m.clog.lookup y := by
  obtain ⟨hs, hl⟩ := enter_spec .aborted m x ((m.clog.lookup x).isNone = true)
  refine ⟨hs, fun y h3 => (hl y h3).trans ?_⟩
  by_cases hy : y = x
  · subst hy
    simp
  · simp [hy]

/-- The status that a snapshot has for an XID. -/
def entryOf (entries : List (ℕ × XidStatus)) (y : ℕ) : Option XidStatus :=
  (entries.find? fun e => e.1 == y && e.2.isTerminal).map (·.2)

theorem importEntry_spec (e : ℕ × XidStatus) :
    Sees [e.1] m (m.importEntry e) ∧ ∀ y, 3 ≤ y → (m.importEntry e).clog.lookup y =
      (m.clog.lookup y).or (entryOf [e] y) := by
  obtain ⟨hs, hl⟩ := enter_spec e.2 m e.1 (e.2.isTerminal = true ∧ (m.clog.lookup e.1).isNone)
  refine ⟨hs, fun y h3 => (hl y h3).trans ?_⟩
  by_cases hy : y = e.1
  · subst hy
    cases m.clog.lookup e.1 <;> cases ht : e.2.isTerminal <;> simp [entryOf, ht]
  · simp [hy, entryOf, Ne.symm hy]

theorem entryOf_cons (e : ℕ × XidStatus) (es : List (ℕ × XidStatus)) (y : ℕ) :
    entryOf (e :: es) y = (entryOf [e] y).or (entryOf es y) := by
  unfold entryOf
  simp only [find?_cons]
  cases (e.1 == y && e.2.isTerminal) <;> simp

theorem importClog_spec (nextXid : ℕ) (entries : List (ℕ × XidStatus)) :
    Sees (entries.map (·.1)) m (m.importClog nextXid entries) ∧
      nextXid ≤ (m.importClog nextXid entries).nextXid ∧
      ∀ y, 3 ≤ y → (m.importClog nextXid entries).clog.lookup y =
        (m.clog.lookup y).or (entryOf entries y) := by
  have hfold : ∀ m : TransactionManager, Sees (entries.map (·.1)) m (entries.foldl importEntry m) ∧
      ∀ y, 3 ≤ y → (entries.foldl importEntry m).clog.lookup y =
        (m.clog.lookup y).or (entryOf entries y) := by
    induction entries with
    | nil => exact fun m => ⟨.refl m, fun y _ => by simp [entryOf]⟩
    | cons e es ih =>
      intro m
      obtain ⟨hs, hl⟩ := importEntry_spec (m := m) e
      obtain ⟨hs', hl'⟩ := ih (m.importEntry e)
      refine ⟨hs.trans hs', fun y h3 => ?_⟩
      rw [foldl_cons, hl' y h3, hl y h3, entryOf_cons e es, Option.or_assoc]
  obtain ⟨hs, hl⟩ := hfold m
  refine ⟨⟨hs.parents, hs.next.trans (le_max_left _ _), fun x hx h3 => ?_, fun hb y st hy => ?_⟩,
    le_max_right _ _, hl⟩
  · exact (hs.seen x hx h3).trans_le (le_max_left _ _)
  · have := hs.bounded hb y st hy
    exact ⟨this.1, this.2.trans_le (le_max_left _ _)⟩

theorem updateCommitStatusForRecord_spec (r : Rec) :
    Sees r.names m (m.updateCommitStatusForRecord r) ∧
      Sees [r.header] m (m.updateCommitStatusForRecord r) ∧
      ∀ y, 3 ≤ y → (m.updateCommitStatusForRecord r).clog.lookup y =
        (r.decision y).or (m.clog.lookup y) := by
  have hobs : ∀ x, Sees [x] m (m.recoverObservedXid x) := fun x => .observed
  cases r with
  | data x => exact ⟨hobs x, hobs x, fun y _ => by simp [updateCommitStatusForRecord, Rec.decision,
      clog_recoverObservedXid]⟩
  | other => exact ⟨(hobs 0).mono (nil_subset _), hobs 0, fun y _ => by
      simp [updateCommitStatusForRecord, Rec.decision, clog_recoverObservedXid]⟩
  | abort x subs =>
    obtain ⟨hs, hl⟩ := recoverAs_spec .aborted (m.recoverObservedXid x) x
    have hsees := (hobs x).trans hs
    refine ⟨hsees.mono (subset_append_left _ _), hsees.mono (subset_append_left _ _),
      fun y h3 => (hl y h3).trans ?_⟩
    rw [clog_recoverObservedXid]
    by_cases hy : y = x <;> simp [Rec.decision, hy]
  | commit x subs =>
    obtain ⟨hs, hl⟩ := recoverAs_spec .committed (m.recoverObservedXid x) x
    obtain ⟨hs', hl'⟩ := foldl_recoverAs_spec .committed
      ((m.recoverObservedXid x).recoverAs .committed x) subs
    have hsees := (hobs x).trans (hs.trans hs')
    refine ⟨hsees.mono (subset_append_right _ _), hsees.mono (subset_append_left _ _),
      fun y h3 => (hl' y h3).trans ?_⟩
    rw [hl y h3, clog_recoverObservedXid]
    by_cases hy : y = x <;> by_cases hm : y ∈ subs <;> simp [Rec.decision, hy, hm]

/-! ## The stages of startup -/

/-- Every entry of the commit log is of a running XID. -/
def OnlyRunning (m : TransactionManager) : Prop :=
  ∀ y st, m.clog.lookup y = some st → st = .inProgress

theorem recoverPrepared_spec (hm : OnlyRunning m) (x : ℕ) :
    ∃ m', m.recoverPrepared x = .ok m' ∧ OnlyRunning m' ∧ Sees [x] m m' ∧
      ∀ y, 3 ≤ y → m'.clog.lookup y = if y = x then some .inProgress else m.clog.lookup y := by
  unfold recoverPrepared
  split_ifs with h
  · split
    · rename_i hx
      refine ⟨_, rfl, ?_, ?_, fun y _ => ?_⟩
      · rw [OnlyRunning, clog_recoverObservedXid]
        exact hm
      · exact sees_recoverObservedXid rfl rfl (fun _ _ => rfl) (.inr rfl)
      · rw [clog_recoverObservedXid]
        split_ifs with hy
        · exact hy ▸ hx
        · rfl
    · rename_i st hne hx
      exact absurd (hm x st hx) (by simpa using hne)
    · rename_i hx
      refine ⟨_, rfl, ?_, ?_, fun y _ => ?_⟩
      · intro y st
        rw [clog_recoverObservedXid]
        simp only [publish, clogInsert, FiniteMap.lookup_insert_eq]
        split_ifs
        · exact fun h => (Option.some.inj h).symm
        · exact hm y st
      · exact sees_recoverObservedXid rfl rfl
          (fun y hy => (FiniteMap.lookup_insert_eq _ _ _ _).trans (if_neg hy))
          (.inl (Xid.isNormal_iff.1 h))
      · rw [clog_recoverObservedXid]
        exact FiniteMap.lookup_insert_eq _ _ _ _
  · exact ⟨m, rfl, hm, .reserved h, fun y h3 => by simp [ne_of_reserved h h3]⟩

theorem foldlM_recoverPrepared (hm : OnlyRunning m) (xs : List ℕ) :
    ∃ m', xs.foldlM recoverPrepared m = .ok m' ∧ OnlyRunning m' ∧ Sees xs m m' ∧
      ∀ y, 3 ≤ y → m'.clog.lookup y = if y ∈ xs then some .inProgress else m.clog.lookup y := by
  induction xs generalizing m with
  | nil => exact ⟨m, rfl, hm, .refl m, fun y _ => by simp⟩
  | cons x xs ih =>
    obtain ⟨m₁, h₁, hm₁, hs₁, hl₁⟩ := recoverPrepared_spec hm x
    obtain ⟨m₂, h₂, hm₂, hs₂, hl₂⟩ := ih hm₁
    refine ⟨m₂, ?_, hm₂, hs₁.trans hs₂, fun y h3 => ?_⟩
    · rw [foldlM_cons, h₁]
      exact h₂
    · rw [hl₂ y h3, hl₁ y h3]
      by_cases hy : y = x <;> simp [hy]

theorem foldlM_flatMap {α β γ ε : Type*} (f : β → α → Except ε β) (g : γ → List α) (l : List γ)
    (b : β) : (l.flatMap g).foldlM f b = l.foldlM (fun b c => (g c).foldlM f b) b := by
  induction l generalizing b with
  | nil => rfl
  | cons c l ih => simp only [flatMap_cons, foldlM_append, foldlM_cons, ih]

/-- The records agree on the status of every XID. -/
def Consistent (w : Wal Rec) : Prop :=
  ∀ (l l' : ℕ) r r' y st st', w.log[l]? = some r → w.log[l']? = some r' →
    r.decision y = some st → r'.decision y = some st' → st = st'

/-- The commit log when the scan has reached the record at `lsn`. -/
structure Scanned (w : Wal Rec) (m : TransactionManager) (lsn : ℕ) (m' : TransactionManager) :
    Prop where
  sees : Sees [] m m'
  seen : ∀ (l : ℕ) r x, w.floor ≤ l → l < lsn → w.log[l]? = some r → x ∈ r.names → 3 ≤ x →
    x < m'.nextXid
  decided : ∀ (l : ℕ) r y st, w.floor ≤ l → l < lsn → w.log[l]? = some r → 3 ≤ y →
    r.decision y = some st → m'.clog.lookup y = some st
  undecided : ∀ y, 3 ≤ y → (∀ (l : ℕ) r, w.floor ≤ l → l < lsn → w.log[l]? = some r →
    r.decision y = none) → m'.clog.lookup y = m.clog.lookup y

variable {w : Wal Rec}

theorem scanned_replay (hw : Consistent w) (m : TransactionManager) :
    Scanned w m w.log.length
      (w.replay (fun m _ r => m.updateCommitStatusForRecord r) m) := by
  refine Wal.replay_invariant (P := Scanned w m) ?_ fun lsn r m₁ hle hr h => ?_
  · exact ⟨.refl m, fun l _ _ h₁ h₂ => by omega, fun l _ _ _ h₁ h₂ => by omega, fun _ _ _ => rfl⟩
  · obtain ⟨hs, -, hl⟩ := updateCommitStatusForRecord_spec (m := m₁) r
    refine ⟨h.sees.trans (hs.mono (nil_subset _)), fun l r' x hfl hlt hr' hx h3 => ?_,
      fun l r' y st hfl hlt hr' h3 hd => ?_, fun y h3 hnone => ?_⟩
    · rcases Nat.lt_succ_iff_lt_or_eq.1 hlt with hlt | rfl
      · exact (h.seen l r' x hfl hlt hr' hx h3).trans_le hs.next
      · rw [hr] at hr'
        cases hr'
        exact hs.seen x hx h3
    · rw [hl y h3]
      rcases Nat.lt_succ_iff_lt_or_eq.1 hlt with hlt | rfl
      · rw [h.decided l r' y st hfl hlt hr' h3 hd]
        cases hd' : r.decision y with
        | none => rfl
        | some st' => rw [hw lsn l r r' y st' st hr hr' hd' hd, Option.some_or]
      · rw [hr] at hr'
        cases hr'
        rw [hd, Option.some_or]
    · rw [hl y h3, hnone lsn r hle (Nat.lt_succ_self lsn) hr, Option.none_or]
      exact h.undecided y h3 fun l r' hfl hlt => hnone l r' hfl (hlt.trans (Nat.lt_succ_self lsn))

/-- The commit log when the sweep has reached the record at `lsn`. -/
structure Swept (w : Wal Rec) (m : TransactionManager) (lsn : ℕ) (m' : TransactionManager) :
    Prop where
  sees : Sees [] m m'
  kept : ∀ y st, 3 ≤ y → m.clog.lookup y = some st → m'.clog.lookup y = some st
  swept : ∀ y, 3 ≤ y → m.clog.lookup y = none →
    m'.clog.lookup y = none ∨ m'.clog.lookup y = some .aborted
  header : ∀ (l : ℕ) r, w.floor ≤ l → l < lsn → w.log[l]? = some r → 3 ≤ r.header →
    m'.clog.lookup r.header ≠ none

theorem swept_replay (w : Wal Rec) (m : TransactionManager) :
    Swept w m w.log.length
      (w.replay (fun m _ r => m.recoverUncommittedAsAborted r.header) m) := by
  refine Wal.replay_invariant (P := Swept w m) ?_ fun lsn r m₁ hle hr h => ?_
  · exact ⟨.refl m, fun _ _ _ h => h, fun _ _ h => .inl h, fun l _ h₁ h₂ => by omega⟩
  · obtain ⟨hs, hl⟩ := recoverUncommittedAsAborted_spec (m := m₁) (x := r.header)
    have hkeep : ∀ y st, 3 ≤ y → m₁.clog.lookup y = some st →
        (m₁.recoverUncommittedAsAborted r.header).clog.lookup y = some st := by
      intro y st h3 hy
      rw [hl y h3, hy, if_neg (by simp)]
    refine ⟨h.sees.trans (hs.mono (nil_subset _)),
      fun y st h3 hy => hkeep y st h3 (h.kept y st h3 hy), fun y h3 hy => ?_,
      fun l r' hfl hlt hr' h3 => ?_⟩
    · rw [hl y h3]
      split_ifs
      · exact .inr rfl
      · exact h.swept y h3 hy
    · rcases Nat.lt_succ_iff_lt_or_eq.1 hlt with hlt | rfl
      · obtain ⟨st, hst⟩ := Option.ne_none_iff_exists'.1 (h.header l r' hfl hlt hr' h3)
        rw [hkeep _ st h3 hst]
        exact Option.some_ne_none st
      · rw [hr] at hr'
        cases hr'
        rw [hl _ h3]
        by_cases hn : m₁.clog.lookup r.header = none
        · simp [hn]
        · simp [hn]

/-- The status that a reconciled file gives the family. -/
def outcome : Option XidStatus → Option XidStatus
  | some .committed | some .frozen => some .committed
  | some .aborted => some .aborted
  | _ => none

theorem reconcile_spec (fs : FiniteMap ℕ Family) (e : Σ _ : ℕ, Family)
    (hp : m.subxidParent = ∅) (h3 : 3 ≤ e.2.xid) :
    Sees [] m (reconcile (m, fs) e).1 ∧
      (outcome (m.clog.lookup e.2.xid) = none → reconcile (m, fs) e = (m, fs)) ∧
      ∀ st, outcome (m.clog.lookup e.2.xid) = some st →
        (reconcile (m, fs) e).2 = fs.erase e.1 ∧
        ∀ y, 3 ≤ y → (reconcile (m, fs) e).1.clog.lookup y =
          if y ∈ e.2.subs then some st else m.clog.lookup y := by
  have hcase : ∀ st, Sees [] m (e.2.subs.foldl (recoverAs st) m) := fun st =>
    (foldl_recoverAs_spec st m e.2.subs).1.mono (nil_subset _)
  have hlook : ∀ st y, 3 ≤ y → (e.2.subs.foldl (recoverAs st) m).clog.lookup y =
      if y ∈ e.2.subs then some st else m.clog.lookup y := fun st =>
    (foldl_recoverAs_spec st m e.2.subs).2
  unfold reconcile
  simp only [status_eq hp h3]
  cases hl : m.clog.lookup e.2.xid with
  | none => exact ⟨.refl m, fun _ => rfl, nofun⟩
  | some st =>
    cases st with
    | inProgress => exact ⟨.refl m, fun _ => rfl, nofun⟩
    | committed | frozen | aborted => exact ⟨hcase _, nofun, by rintro _ ⟨⟩; exact ⟨rfl, hlook _⟩⟩

/-- The manager and the state files after the files `es` are reconciled. -/
structure Reconciled (es : List (Σ _ : ℕ, Family)) (m : TransactionManager)
    (fs : FiniteMap ℕ Family) (r : TransactionManager × FiniteMap ℕ Family) : Prop where
  sees : Sees [] m r.1
  outside : ∀ y, 3 ≤ y → (∀ e ∈ es, y ∉ e.2.members) → r.1.clog.lookup y = m.clog.lookup y
  otherFiles : ∀ g, (∀ e ∈ es, e.1 ≠ g) → r.2.lookup g = fs.lookup g
  resolved : ∀ e ∈ es, ∀ st, outcome (m.clog.lookup e.2.xid) = some st →
    r.2.lookup e.1 = none ∧ ∀ y ∈ e.2.members, r.1.clog.lookup y = some st
  unresolved : ∀ e ∈ es, outcome (m.clog.lookup e.2.xid) = none →
    r.2.lookup e.1 = fs.lookup e.1 ∧ ∀ y ∈ e.2.members, r.1.clog.lookup y = m.clog.lookup y

theorem foldl_reconcile {fs : FiniteMap ℕ Family} (es : List (Σ _ : ℕ, Family))
    (hdisj : es.Pairwise fun e e' => e.1 ≠ e'.1 ∧ ∀ y ∈ e.2.members, y ∉ e'.2.members)
    (hp : m.subxidParent = ∅) (h3 : ∀ e ∈ es, ∀ y ∈ e.2.members, 3 ≤ y)
    (hf : ∀ e ∈ es, m.clog.lookup e.2.xid ≠ some .frozen) :
    Reconciled es m fs (es.foldl reconcile (m, fs)) := by
  induction es generalizing m fs with
  | nil => exact ⟨.refl m, fun _ _ _ => rfl, fun _ _ => rfl, nofun, nofun⟩
  | cons e es ih =>
    obtain ⟨hhead, htail⟩ := pairwise_cons.1 hdisj
    have h3e := h3 e mem_cons_self
    have hmem : ∀ y ∈ e.2.subs, y ∈ e.2.members := fun y hy => mem_cons_of_mem _ hy
    obtain ⟨hs, hkeep, hres⟩ := reconcile_spec fs e hp (h3e _ mem_cons_self)
    rw [foldl_cons]
    generalize reconcile (m, fs) e = q at hs hkeep hres ⊢
    -- the step changes only members of the family of `e`
    have hout : ∀ y, 3 ≤ y → y ∉ e.2.members → q.1.clog.lookup y = m.clog.lookup y := by
      intro y hy3 hy
      cases ho : outcome (m.clog.lookup e.2.xid) with
      | none => rw [hkeep ho]
      | some st => rw [(hres st ho).2 y hy3, if_neg fun h => hy (hmem y h)]
    have hfile : ∀ g, g ≠ e.1 → q.2.lookup g = fs.lookup g := by
      intro g hg
      cases ho : outcome (m.clog.lookup e.2.xid) with
      | none => rw [hkeep ho]
      | some st => rw [(hres st ho).1, FiniteMap.lookup_erase_eq, if_neg hg]
    have hrest : ∀ e' ∈ es, ∀ y ∈ e'.2.members, q.1.clog.lookup y = m.clog.lookup y :=
      fun e' he' y hy =>
        hout y (h3 e' (mem_cons_of_mem _ he') y hy) fun h => (hhead e' he').2 y h hy
    have hr : Reconciled es q.1 q.2 (es.foldl reconcile q) := ih htail (hs.parents.trans hp)
      (fun e' he' => h3 e' (mem_cons_of_mem _ he'))
      (fun e' he' => by
        rw [hrest e' he' _ mem_cons_self]
        exact hf e' (mem_cons_of_mem _ he'))
    generalize es.foldl reconcile q = r at hr ⊢
    -- and the rest does not touch that family
    have hhere : ∀ y ∈ e.2.members, r.1.clog.lookup y = q.1.clog.lookup y := fun y hy =>
      hr.outside y (h3e y hy) fun e' he' => (hhead e' he').2 y hy
    have hfileHere : r.2.lookup e.1 = q.2.lookup e.1 :=
      hr.otherFiles e.1 fun e' he' => (hhead e' he').1.symm
    refine ⟨hs.trans hr.sees, fun y hy3 hy => ?_, fun g hg => ?_, fun e' he' st ho => ?_,
      fun e' he' ho => ?_⟩
    · rw [hr.outside y hy3 fun e' he' => hy e' (mem_cons_of_mem _ he')]
      exact hout y hy3 (hy e mem_cons_self)
    · rw [hr.otherFiles g fun e' he' => hg e' (mem_cons_of_mem _ he')]
      exact hfile g (hg e mem_cons_self).symm
    · rcases mem_cons.1 he' with rfl | he'
      · refine ⟨?_, fun y hy => ?_⟩
        · rw [hfileHere, (hres st ho).1, FiniteMap.lookup_erase_eq, if_pos rfl]
        · rw [hhere y hy, (hres st ho).2 y (h3e y hy)]
          split_ifs with hsub
          · rfl
          · have hyx : y = e'.2.xid := (mem_cons.1 hy).resolve_right hsub
            subst hyx
            have hne := hf e' mem_cons_self
            revert ho hne
            cases m.clog.lookup e'.2.xid with
            | none => exact nofun
            | some st' => cases st' <;> simp [outcome]
      · rw [← hrest e' he' _ mem_cons_self] at ho
        exact hr.resolved e' he' st ho
    · rcases mem_cons.1 he' with rfl | he'
      · rw [hfileHere]
        refine ⟨by rw [hkeep ho], fun y hy => ?_⟩
        rw [hhere y hy, hkeep ho]
      · have ho' := ho
        rw [← hrest e' he' _ mem_cons_self] at ho'
        obtain ⟨hfl, hly⟩ := hr.unresolved e' he' ho'
        refine ⟨hfl.trans (hfile _ (hhead e' he').1.symm), fun y hy => ?_⟩
        rw [hly y hy, hrest e' he' y hy]

/-! ## The whole of startup -/

/-- The XID is in the family of a state file. -/
def InFiles (files : FiniteMap ℕ Family) (y : ℕ) : Prop :=
  ∃ g p, files.lookup g = some p ∧ y ∈ p.members

/-- A retained record gives the XID this status. -/
def Retained (w : Wal Rec) (y : ℕ) (st : XidStatus) : Prop :=
  ∃ (l : ℕ) (r : Rec), w.floor ≤ l ∧ w.log[l]? = some r ∧ r.decision y = some st

/-- The status that the snapshot on disk has for an XID. -/
def snapshotStatus (snapshot : Option ClogSnapshot) (y : ℕ) : Option XidStatus :=
  snapshot.elim none fun sn => entryOf sn.entries y

/-- The state files and the snapshot are fit for startup. -/
structure Startable (w : Wal Rec) (snapshot : Option ClogSnapshot) (files : FiniteMap ℕ Family) :
    Prop where
  consistent : Consistent w
  lsn : ∀ sn ∈ snapshot, sn.lsn ≤ w.log.length
  notFrozen : ∀ y, snapshotStatus snapshot y ≠ some .frozen
  normal : ∀ y, InFiles files y → 3 ≤ y
  disjoint : ∀ g g' p p', files.lookup g = some p → files.lookup g' = some p' → g ≠ g' →
    ∀ y ∈ p.members, y ∉ p'.members

/-- The statuses, the allocator and the state files after startup. -/
structure Started (w : Wal Rec) (snapshot : Option ClogSnapshot) (files : FiniteMap ℕ Family)
    (m : TransactionManager) (files' : FiniteMap ℕ Family) : Prop where
  sees : Sees [] {} m
  seenSnapshot : ∀ sn ∈ snapshot, sn.nextXid ≤ m.nextXid
  seenLog : ∀ (l : ℕ) r x, w.floor ≤ l → w.log[l]? = some r → x ∈ r.names → 3 ≤ x → x < m.nextXid
  decided : ∀ y st, 3 ≤ y → ¬ InFiles files y → Retained w y st → m.clog.lookup y = some st
  imported : ∀ y st, 3 ≤ y → ¬ InFiles files y → (∀ st', ¬ Retained w y st') →
    snapshotStatus snapshot y = some st → m.clog.lookup y = some st
  swept : ∀ y, 3 ≤ y → ¬ InFiles files y → (∀ st, ¬ Retained w y st) →
    snapshotStatus snapshot y = none →
    m.clog.lookup y = none ∨ m.clog.lookup y = some .aborted
  header : ∀ (l : ℕ) r, w.floor ≤ l → w.log[l]? = some r → 3 ≤ r.header →
    ¬ InFiles files r.header → m.clog.lookup r.header ≠ none
  resolved : ∀ g p st, files.lookup g = some p → Retained w p.xid st →
    files'.lookup g = none ∧ ∀ y ∈ p.members, m.clog.lookup y = some st
  unresolved : ∀ g p, files.lookup g = some p → (∀ st, ¬ Retained w p.xid st) →
    files'.lookup g = some p ∧
      ∀ y ∈ p.members, (∀ st, ¬ Retained w y st) → m.clog.lookup y = some .inProgress
  noFiles : ∀ g, files.lookup g = none → files'.lookup g = none

variable {files : FiniteMap ℕ Family}

theorem mem_flatMap_values : y ∈ files.values.flatMap Family.members ↔ InFiles files y := by
  simp only [mem_flatMap, FiniteMap.values, mem_map, InFiles]
  constructor
  · rintro ⟨p, ⟨⟨g, p'⟩, he, rfl⟩, hy⟩
    exact ⟨g, p', AList.mem_lookup_iff.2 he, hy⟩
  · rintro ⟨g, p, hg, hy⟩
    exact ⟨p, ⟨⟨g, p⟩, AList.mem_lookup_iff.1 hg, rfl⟩, hy⟩

variable {snapshot : Option ClogSnapshot}

theorem importSnapshot_spec {n : ℕ} (h : ∀ sn ∈ snapshot, sn.lsn ≤ n) :
    Sees [] m (m.importSnapshot n snapshot) ∧
      (∀ sn ∈ snapshot, sn.nextXid ≤ (m.importSnapshot n snapshot).nextXid) ∧
      ∀ y, 3 ≤ y → (m.importSnapshot n snapshot).clog.lookup y =
        (m.clog.lookup y).or (snapshotStatus snapshot y) := by
  cases snapshot with
  | none => exact ⟨.refl m, nofun, fun y _ => by simp [importSnapshot, snapshotStatus]⟩
  | some sn =>
    obtain ⟨hs, hn, hl⟩ := importClog_spec (m := m) sn.nextXid sn.entries
    rw [importSnapshot, if_pos (h sn rfl)]
    refine ⟨hs.mono (nil_subset _), ?_, hl⟩
    rintro _ ⟨⟩
    exact hn

/-- The decision on an XID once the log is scanned and swept. -/
theorem lookup_swept {m₂ m₃ : TransactionManager} (h₂ : Scanned w m₁ w.log.length m₂)
    (h₃ : Swept w m₂ w.log.length m₃) (h3 : 3 ≤ y) :
    (∀ st, Retained w y st → m₃.clog.lookup y = some st) ∧
      ((∀ st, ¬ Retained w y st) →
        (∀ st, m₁.clog.lookup y = some st → m₃.clog.lookup y = some st) ∧
        (m₁.clog.lookup y = none →
          m₃.clog.lookup y = none ∨ m₃.clog.lookup y = some .aborted)) := by
  constructor
  · rintro st ⟨l, r, hfl, hr, hd⟩
    exact h₃.kept y st h3 (h₂.decided l r y st hfl (w.lt_length_of_getElem? hr) hr h3 hd)
  · intro hno
    have hsame : m₂.clog.lookup y = m₁.clog.lookup y := by
      refine h₂.undecided y h3 fun l r hfl _ hr => ?_
      cases hd : r.decision y with
      | none => rfl
      | some st => exact absurd ⟨l, r, hfl, hr, hd⟩ (hno st)
    rw [← hsame]
    exact ⟨fun st => h₃.kept y st h3, h₃.swept y h3⟩

variable {r : Rec}

theorem decision_eq (h : r.decision y = some st) : st = .committed ∨ st = .aborted := by
  cases r <;> simp only [Rec.decision, reduceCtorEq, Option.ite_none_right_eq_some,
    Option.some.injEq] at h
  · exact .inl h.2.symm
  · exact .inr h.2.symm

theorem outcome_of_decision (h : r.decision y = some st) : outcome (some st) = some st := by
  rcases decision_eq h with rfl | rfl <;> rfl

/-- **Startup.** -/
theorem startup_spec (h : Startable w snapshot files) :
    ∃ m files', startup w snapshot files = .ok (m, files') ∧ Started w snapshot files m files' := by
  obtain ⟨m₀, hseed, -, hs₀, hl₀⟩ := foldlM_recoverPrepared (m := {}) (by simp [OnlyRunning])
    (files.values.flatMap Family.members)
  rw [foldlM_flatMap] at hseed
  obtain ⟨hs₁, hn₁, hl₁⟩ := importSnapshot_spec (m := m₀) h.lsn
  have h₂ := scanned_replay h.consistent (m₀.importSnapshot w.log.length snapshot)
  have h₃ := swept_replay w (w.replay (fun m _ r => m.updateCommitStatusForRecord r)
    (m₀.importSnapshot w.log.length snapshot))
  generalize hm₁ : m₀.importSnapshot w.log.length snapshot = m₁ at *
  generalize hm₂ : w.replay (fun m _ r => m.updateCommitStatusForRecord r) m₁ = m₂ at *
  generalize hm₃ : w.replay (fun m _ r => m.recoverUncommittedAsAborted r.header) m₂ = m₃ at *
  have hin : ∀ y, InFiles files y → m₁.clog.lookup y = some .inProgress := by
    intro y hy
    rw [hl₁ y (h.normal y hy), hl₀ y (h.normal y hy), if_pos (mem_flatMap_values.2 hy),
      Option.some_or]
  have hnotin : ∀ y, 3 ≤ y → ¬ InFiles files y →
      m₁.clog.lookup y = snapshotStatus snapshot y := by
    intro y h3 hy
    rw [hl₁ y h3, hl₀ y h3, if_neg (mt mem_flatMap_values.1 hy)]
    rfl
  have hall := fun (y : ℕ) (h3 : 3 ≤ y) => lookup_swept h₂ h₃ h3
  -- the parent of a state file has the retained decision on it, or is still running
  have hparent : ∀ g p, files.lookup g = some p →
      (∀ st, Retained w p.xid st → outcome (m₃.clog.lookup p.xid) = some st) ∧
      ((∀ st, ¬ Retained w p.xid st) → m₃.clog.lookup p.xid = some .inProgress) := by
    intro g p hg
    have hp : InFiles files p.xid := ⟨g, p, hg, mem_cons_self⟩
    have h3 := h.normal p.xid hp
    refine ⟨fun st hst => ?_, fun hno => ?_⟩
    · rw [(hall p.xid h3).1 st hst]
      obtain ⟨_, _, _, _, hd⟩ := hst
      exact outcome_of_decision hd
    · exact ((hall p.xid h3).2 hno).1 _ (hin _ hp)
  have hent : ∀ e ∈ files.entries, files.lookup e.1 = some e.2 := fun e he =>
    AList.mem_lookup_iff.2 he
  have hrec : Reconciled files.entries m₃ files (files.entries.foldl reconcile (m₃, files)) := by
    refine foldl_reconcile files.entries ?_ ?_ (fun e he y hy => h.normal y ⟨_, _, hent e he, hy⟩)
      fun e he => ?_
    · refine (nodupKeys_iff_pairwise.1 files.nodupKeys).imp_of_mem fun he he' hne => ?_
      exact ⟨hne, h.disjoint _ _ _ _ (hent _ he) (hent _ he') hne⟩
    · rw [h₃.sees.parents, h₂.sees.parents, hs₁.parents, hs₀.parents]
    · by_cases hno : ∀ st, ¬ Retained w e.2.xid st
      · rw [(hparent _ _ (hent e he)).2 hno]
        simp
      · simp only [not_forall, not_not] at hno
        obtain ⟨st, hst⟩ := hno
        rw [(hall _ (h.normal _ ⟨_, _, hent e he, mem_cons_self⟩)).1 st hst]
        obtain ⟨_, _, _, _, hd⟩ := hst
        rcases decision_eq hd with rfl | rfl <;> simp
  rcases hq : files.entries.foldl reconcile (m₃, files) with ⟨m, files'⟩
  rw [hq] at hrec
  refine ⟨m, files', ?_, ?_⟩
  · simp only [startup]
    rw [hseed]
    simp only [hm₁, hm₂, hm₃, hq, bind, Except.bind, pure, Except.pure]
  have hout := fun y h3 (hy : ¬ InFiles files y) =>
    hrec.outside y h3 fun e he hm => hy ⟨_, _, hent e he, hm⟩
  have hmem : ∀ g p, files.lookup g = some p → (⟨g, p⟩ : Σ _ : ℕ, Family) ∈ files.entries :=
    fun g p hg => AList.mem_lookup_iff.1 hg
  exact
    { sees := (((((hs₀.mono (nil_subset _)).trans hs₁).trans h₂.sees).trans h₃.sees).trans
        hrec.sees).mono (nil_subset _)
      seenSnapshot := fun sn hsn =>
        (hn₁ sn hsn).trans (h₂.sees.next.trans (h₃.sees.next.trans hrec.sees.next))
      seenLog := fun l r x hfl hr hx h3 =>
        (h₂.seen l r x hfl (w.lt_length_of_getElem? hr) hr hx h3).trans_le
          (h₃.sees.next.trans hrec.sees.next)
      decided := fun y st h3 hy hst => by
        rw [hout y h3 hy]
        exact (hall y h3).1 st hst
      imported := fun y st h3 hy hno hst => by
        rw [hout y h3 hy]
        exact ((hall y h3).2 hno).1 st ((hnotin y h3 hy).trans hst)
      swept := fun y h3 hy hno hst => by
        rw [hout y h3 hy]
        exact ((hall y h3).2 hno).2 ((hnotin y h3 hy).trans hst)
      header := fun l r hfl hr h3 hy => by
        rw [hout _ h3 hy]
        exact h₃.header l r hfl (w.lt_length_of_getElem? hr) hr h3
      resolved := fun g p st hg hst =>
        hrec.resolved ⟨g, p⟩ (hmem g p hg) st ((hparent g p hg).1 st hst)
      unresolved := fun g p hg hno => by
        have ho : outcome (m₃.clog.lookup p.xid) = none := by
          rw [(hparent g p hg).2 hno]
          rfl
        obtain ⟨hfl, hly⟩ := hrec.unresolved ⟨g, p⟩ (hmem g p hg) ho
        refine ⟨hfl.trans hg, fun y hy hnoy => ?_⟩
        have hyin : InFiles files y := ⟨g, p, hg, hy⟩
        rw [hly y hy]
        exact ((hall y (h.normal y hyin)).2 hnoy).1 _ (hin y hyin)
      noFiles := fun g hg => by
        rw [hrec.otherFiles g fun e he heq => ?_]
        · exact hg
        · have := hent e he
          rw [heq, hg] at this
          cases this }

end

end TransactionManager

end UltraSql
