import UltraSql.Txn.Sessions

/-!
# What holds of every session

The invariants of the sessions machine that need no side condition. A thread touches the commit
log, the running set, the floors and the parent links only at XIDs of its own family
(`frame_step`), families are disjoint, and an entry of the commit log moves only from absent to
in progress and from in progress to a terminal status (`clogStep_step`).

**Theorem (`reach_inv`).** In every reachable state of every interleaving: the XIDs of a
transaction that has not ended are not committed, those it has published and not ended are in the
running set, its recorded floor is the `xmin` of its snapshot outside the window between the
snapshot and the floor, and no other transaction has deleted a row that it inserted.
-/

namespace UltraSql.Sessions

open List TransactionManager SubtxnManager FiniteMap

variable {sh : Sharding}

/-! ## What a program counter mentions -/

/-- Every XID a transaction handle mentions. -/
def txnXids (t : Transaction) : List ℕ :=
  t.xid :: t.snapshot.currentXid ::
    (t.subtxnStack.liveStackSubxids ++ t.subtxnStack.mergedUp ++ t.subtxnStack.rolledBack ++
      t.snapshot.ownLiveSubxids ++ t.snapshot.ownRolledBackSubxids)

def AllocFor.txn? : AllocFor → Option Transaction
  | begin _ => none
  | savepoint t _ | rollback t _ => some t

def SnapshotFor.txn? : SnapshotFor → Option Transaction
  | begin _ _ => none
  | refresh t | statement t _ => some t

def SnapshotFor.xids : SnapshotFor → List ℕ
  | begin _ x => [x]
  | refresh t | statement t _ => txnXids t

namespace Pc

/-- The transaction a thread holds, with its current snapshot. -/
def txn? : Pc sh → Option Transaction
  | alloc k _ | clogged k _ | published k _ => k.txn?
  | xmax k _ => k.txn?
  | floor t | running t | aborting t _ | unpublishing t _ _ => some t
  | _ => none

/-- The XID that is allocated but not yet in the running set. -/
def pending : Pc sh → Option ℕ
  | alloc _ x | clogged _ x => some x
  | _ => none

/-- The thread's transaction has ended. -/
def atEnd : Pc sh → Bool
  | ending _ | ended => true
  | _ => false

/-- The snapshot is built and its floor is not yet recorded. -/
def window : Pc sh → Bool
  | floor _ => true
  | _ => false

/-- Every XID a program counter mentions. -/
def xids : Pc sh → List ℕ
  | alloc k x | clogged k x | published k x => x :: (k.txn?.elim [] txnXids)
  | xmax k _ => k.xids
  | floor t | running t => txnXids t
  | aborting t todo => txnXids t ++ todo
  | unpublishing t x todo => x :: (txnXids t ++ todo)
  | ending folded => folded
  | _ => []

end Pc

/-- A walk of the commit log has covered, or still has to visit, every XID that was running when
it began and still is. -/
def WalkOk (m : TransactionManager) : Pc sh → Prop
  | .walking todo oldest start =>
    ∀ y ∈ start, m.clog.lookup y ≠ none ∧
      (m.clog.lookup y = some .inProgress → sh.shardOf y ∈ todo ∨ ∃ o, oldest = some o ∧ o ≤ y)
  | .walked oldest start =>
    ∀ y ∈ start, m.clog.lookup y ≠ none ∧ (m.clog.lookup y = some .inProgress → oldest ≤ y)
  | _ => True

/-- What the manager has for the XID a thread is working on. -/
def PcStatus (m : TransactionManager) : Pc sh → Prop
  | .alloc _ x => m.clog.lookup x = none
  | .unpublishing _ x _ => m.clog.lookup x = some .aborted
  | .xmax _ x => x ≤ m.nextXid
  | _ => True

/-! ## The invariants -/

structure SharedInv (s : Shared) : Prop where
  next : 3 ≤ s.mgr.nextXid
  clog : ∀ x st, s.mgr.clog.lookup x = some st → x < s.mgr.nextXid
  links : ∀ x p, s.mgr.subxidParent.lookup x = some p → x < s.mgr.nextXid
  rows : ∀ r ∈ s.rows, r.infomask = {} ∧ 3 ≤ r.xmin ∧ r.xmin < s.mgr.nextXid

structure LocalInv (s : Shared) (l : Thread sh) : Prop where
  range : ∀ x ∈ l.family, 3 ≤ x ∧ x < s.mgr.nextXid
  mentions : ∀ x ∈ l.pc.xids, x ∈ l.family
  status : PcStatus s.mgr l.pc
  entered : ∀ x ∈ l.family, s.mgr.clog.lookup x = none → ∃ k, l.pc = .alloc k x
  alive : l.pc.atEnd = false →
    ∀ x ∈ l.family, ∀ st, s.mgr.clog.lookup x = some st → st.isCommitted = false
  published : ∀ x ∈ l.family, l.pc.pending ≠ some x → s.mgr.clog.lookup x = some .inProgress →
    x ∈ s.mgr.inProgress
  links : ∀ x ∈ l.family, ∀ p, s.mgr.subxidParent.lookup x = some p → p ∈ l.family
  floor : ∀ t, l.pc.txn? = some t → l.pc.window = false →
    s.mgr.snapshotXmins.lookup t.xid = some t.snapshot.xmin
  rows : l.pc.atEnd = false →
    ∀ r ∈ s.rows, r.xmin ∈ l.family → r.xmax = 0 ∨ r.xmax ∈ l.family
  walk : WalkOk s.mgr l.pc

/-- Two threads have no XID in common. -/
def Apart (l k : Thread sh) : Prop := ∀ x ∈ l.family, x ∉ k.family

/-! ## What one section changes -/

/-- The change of a manager that touches only XIDs of one family. -/
structure Frame (m m' : TransactionManager) (family : List ℕ) : Prop where
  next : m.nextXid ≤ m'.nextXid
  clog : ∀ x, x ∉ family → m'.clog.lookup x = m.clog.lookup x
  running : ∀ x, x ∉ family → (x ∈ m'.inProgress ↔ x ∈ m.inProgress)
  floors : ∀ x, x ∉ family → m'.snapshotXmins.lookup x = m.snapshotXmins.lookup x
  links : ∀ x, x ∉ family → m'.subxidParent.lookup x = m.subxidParent.lookup x

theorem Frame.refl (m : TransactionManager) (family : List ℕ) : Frame m m family :=
  ⟨le_rfl, fun _ _ => rfl, fun _ _ => Iff.rfl, fun _ _ => rfl, fun _ _ => rfl⟩

/-- How an entry of the commit log may move. -/
def ClogStep (m m' : TransactionManager) : Prop :=
  ∀ x, m'.clog.lookup x = m.clog.lookup x ∨
    (m.clog.lookup x = none ∧ m'.clog.lookup x = some .inProgress) ∨
    (m.clog.lookup x = some .inProgress ∧
      ∃ st, m'.clog.lookup x = some st ∧ st.isTerminal = true)

theorem ClogStep.refl (m : TransactionManager) : ClogStep m m := fun _ => .inl rfl

section Terminate

variable {m m' : TransactionManager} {t : Transaction} {st : XidStatus} {family : List ℕ}

theorem mem_txnXids_of_committed {x : ℕ} (hx : x ∈ t.committedSubxidFamily) : x ∈ txnXids t := by
  rw [Transaction.mem_committedSubxidFamily] at hx
  simp only [txnXids, mem_cons, mem_append]
  tauto

theorem xid_mem_txnXids : t.xid ∈ txnXids t := mem_cons_self

theorem frame_terminate (ht : ∀ x ∈ txnXids t, x ∈ family)
    (h : m.terminateWithSubxids t.xid t.committedSubxidFamily st false = .ok m') :
    Frame m m' family := by
  obtain ⟨-, hclog, hrun, hnext, hfloors, hlinks⟩ := terminate_ok h
  have hxid : ∀ x, x ∉ family → x ≠ t.xid := fun x hx he => hx (ht x (he ▸ xid_mem_txnXids))
  have hfam : ∀ x, x ∉ family → x ∉ t.committedSubxidFamily := fun x hx hm =>
    hx (ht x (mem_txnXids_of_committed hm))
  refine ⟨hnext.ge, fun x hx => ?_, fun x hx => ?_, fun x hx => ?_, fun x hx => ?_⟩
  · rw [hclog, if_neg (hxid x hx), if_neg (hfam x hx)]
  · rw [hrun]
    exact ⟨fun h => h.1, fun h => ⟨h, hxid x hx, hfam x hx⟩⟩
  · rw [hfloors, lookup_erase_eq, if_neg (hxid x hx)]
  · rw [hlinks]

theorem clogStep_terminate (hst : st.isTerminal = true)
    (h : m.terminateWithSubxids t.xid t.committedSubxidFamily st false = .ok m') :
    ClogStep m m' := by
  obtain ⟨hp, hclog, -⟩ := terminate_ok h
  intro x
  rw [hclog]
  by_cases hx : x = t.xid
  · subst hx
    rw [if_pos rfl]
    exact .inr (.inr ⟨hp, st, rfl, hst⟩)
  · rw [if_neg hx]
    by_cases hm : x ∈ t.committedSubxidFamily
    · rw [if_pos hm]
      cases hl : m.clog.lookup x with
      | none => exact .inl rfl
      | some st' =>
        cases st' with
        | inProgress => exact .inr (.inr ⟨rfl, st, rfl, hst⟩)
        | committed | aborted | frozen => exact .inl rfl
    · rw [if_neg hm]
      exact .inl rfl

end Terminate

variable {s s' : Shared} {l l' : Thread sh} {a : Act}

/-- **A section touches only its own family.** -/
theorem frame_step (hl : LocalInv s l) (h : SectionStep s l a s' l') :
    Frame s.mgr s'.mgr l'.family := by
  have hm := hl.mentions
  cases h with
  | allocBegin | allocSavepoint | allocRollback =>
    exact { Frame.refl s.mgr _ with next := Nat.le_succ _ }
  | clogInsert hpc =>
    rw [hpc] at hm
    refine { Frame.refl s.mgr _ with clog := fun x hx => ?_ }
    have hne : x ≠ _ := fun he => hx (he ▸ hm _ mem_cons_self)
    rw [clogInsert, lookup_insert_eq, if_neg hne]
  | publish hpc =>
    rw [hpc] at hm
    refine { Frame.refl s.mgr _ with running := fun x hx => ?_ }
    have hne : x ≠ _ := fun he => hx (he ▸ hm _ mem_cons_self)
    rw [mem_inProgress_publish]
    exact ⟨fun h => h.resolve_left hne, .inr⟩
  | pushSavepoint hpc | restamp hpc =>
    rw [hpc] at hm
    refine { Frame.refl s.mgr _ with links := fun x hx => ?_ }
    have hne : x ≠ _ := fun he => hx (he ▸ hm _ mem_cons_self)
    rw [linkSubxid, lookup_insert_eq, if_neg hne]
  | recordFloor hpc =>
    rw [hpc] at hm
    refine { Frame.refl s.mgr _ with floors := fun x hx => ?_ }
    have hne : x ≠ _ := fun he => hx (he ▸ hm _ xid_mem_txnXids)
    rw [recordFloor, lookup_insert_eq, if_neg hne]
  | @clogAbort t y todo hpc hy =>
    rw [hpc] at hm
    rw [clogAbort, if_pos hy]
    refine { Frame.refl s.mgr _ with clog := fun x hx => ?_ }
    have hne : x ≠ y := fun he => hx (he ▸ hm y (by simp [Pc.xids]))
    rw [lookup_insert_eq, if_neg hne]
  | @unpublish t y todo hpc =>
    rw [hpc] at hm
    refine { Frame.refl s.mgr _ with running := fun x hx => ?_ }
    have hne : x ≠ y := fun he => hx (he ▸ hm y mem_cons_self)
    simp [unpublish, hne]
  | commit hpc hend | abort hpc hend =>
    rw [hpc] at hm
    exact frame_terminate hm hend
  | @forget folded hpc =>
    rw [hpc] at hm
    refine { Frame.refl s.mgr _ with links := fun x hx => ?_ }
    have hn : x ∉ folded := fun hf => hx (hm x hf)
    rw [lookup_forgetSubxidParents, if_neg hn]
  | _ => exact .refl _ _

/-- **Entries of the commit log only move forward.** -/
theorem clogStep_step (hl : LocalInv s l) (h : SectionStep s l a s' l') :
    ClogStep s.mgr s'.mgr := by
  cases h with
  | @clogInsert k y hpc =>
    intro x
    rw [clogInsert, lookup_insert_eq]
    have hfresh := hl.status
    rw [hpc] at hfresh
    by_cases hx : x = y
    · subst hx
      exact .inr (.inl ⟨hfresh, by rw [if_pos rfl]⟩)
    · exact .inl (by rw [if_neg hx])
  | @clogAbort t y todo hpc hy =>
    intro x
    rw [clogAbort, if_pos hy, lookup_insert_eq]
    by_cases hx : x = y
    · subst hx
      exact .inr (.inr ⟨clogInProgress_iff.1 hy, .aborted, by rw [if_pos rfl],
        rfl⟩)
    · exact .inl (by rw [if_neg hx])
  | commit hpc hend | abort hpc hend => exact clogStep_terminate rfl hend
  | _ => exact .refl _

/-! ## The handle of a transaction mentions only its family -/

section Mentions

variable {t t' : Transaction} {x y : ℕ}

theorem mem_txnXids :
    x ∈ txnXids t ↔ x = t.xid ∨ x = t.snapshot.currentXid ∨
      x ∈ t.subtxnStack.liveStackSubxids ∨ x ∈ t.subtxnStack.mergedUp ∨
      x ∈ t.subtxnStack.rolledBack ∨ x ∈ t.snapshot.ownLiveSubxids ∨
      x ∈ t.snapshot.ownRolledBackSubxids := by
  simp only [txnXids, mem_cons, mem_append]
  tauto

theorem mem_txnXids_applyOwnSubxids (hx : x ∈ txnXids t.applyOwnSubxids) : x ∈ txnXids t := by
  rw [mem_txnXids] at hx ⊢
  simp only [Transaction.applyOwnSubxids, OwnSubxids.fromSubtxn, Snapshot.mem_live_setOwnSubxids,
    Snapshot.mem_rolledBack_setOwnSubxids, mem_selfSubxids] at hx
  simp only [Snapshot.setOwnSubxids] at hx
  tauto

variable {name : String}

theorem mem_txnXids_savepoint {c : ℕ}
    (hx : x ∈ txnXids { t with subtxnStack := t.subtxnStack.savepoint name y c }) :
    x = y ∨ x ∈ txnXids t := by
  rw [mem_txnXids] at hx ⊢
  simp only [savepoint, liveStackSubxids, map_cons,
    mem_cons, entry] at hx ⊢
  tauto

theorem mem_txnXids_rollback {o : RollbackOutcome} {m : SubtxnManager}
    (h : t.subtxnStack.rollbackTo name y = .ok (o, m)) :
    (∀ x ∈ o.aborted, x ∈ txnXids t) ∧
      ∀ x ∈ txnXids
        { t with subtxnStack := o.aborted.foldl SubtxnManager.recordRolledBack m },
        x = y ∨ x ∈ txnXids t := by
  obtain ⟨inner, target, outer, hstack, -, -, -, hab, -, hst, hmer, hroll⟩ :=
    rollbackTo_ok h
  obtain ⟨h₁, h₂, -, h₄⟩ := foldl_recordRolledBack (m := m) o.aborted
  have hlive : ∀ x, x ∈ t.subtxnStack.liveStackSubxids ↔
      x ∈ inner.map (·.xid) ∨ x = target.xid ∨ x ∈ outer.map (·.xid) := by
    intro x
    simp [liveStackSubxids, hstack]
  have haborted : ∀ x ∈ o.aborted, x ∈ txnXids t := by
    intro x hx
    rw [mem_txnXids, hlive]
    rcases (hab x).1 hx with hx | hx | hx
    · exact .inr (.inr (.inl (.inl hx)))
    · exact .inr (.inr (.inl (.inr (.inl hx))))
    · exact .inr (.inr (.inr (.inl hx.1)))
  refine ⟨haborted, fun x hx => ?_⟩
  rw [mem_txnXids] at hx
  simp only [liveStackSubxids, h₁, h₂, h₄, hst, hmer, map_cons, mem_cons,
    mem_filter] at hx
  rcases hx with hx | hx | (hx | hx) | hx | (hx | hx) | hx | hx
  · exact .inr (mem_txnXids.2 (.inl hx))
  · exact .inr (mem_txnXids.2 (.inr (.inl hx)))
  · exact .inl hx
  · exact .inr (mem_txnXids.2 (.inr (.inr (.inl ((hlive x).2 (.inr (.inr hx)))))))
  · exact .inr (mem_txnXids.2 (.inr (.inr (.inr (.inl hx.1)))))
  · exact .inr (haborted x hx)
  · rcases (hroll x).1 hx with hx | hx
    · exact .inr (mem_txnXids.2 (.inr (.inr (.inr (.inr (.inl hx))))))
    · exact .inr (haborted x hx)
  · exact .inr (mem_txnXids.2 (.inr (.inr (.inr (.inr (.inr (.inl hx)))))))
  · exact .inr (mem_txnXids.2 (.inr (.inr (.inr (.inr (.inr (.inr hx)))))))

theorem mem_txnXids_release {sub : ℕ}
    (h : TransactionManager.releaseSavepoint t name = .ok (sub, t')) (hx : x ∈ txnXids t') :
    x ∈ txnXids t := by
  unfold releaseSavepoint at h
  split at h
  · cases h
  · rename_i sub' m hrel
    cases h
    obtain ⟨inner, target, outer, hstack, -, -, -, -, hst, hroll, hmer⟩ :=
      release_ok hrel
    have hx' := mem_txnXids_applyOwnSubxids hx
    rw [mem_txnXids] at hx' ⊢
    simp only [liveStackSubxids, hst, hroll, hmer, map_append, mem_append,
      mem_insert_iff] at hx'
    rw [liveStackSubxids, hstack]
    simp only [map_append, map_cons, mem_append, mem_cons]
    tauto

theorem writeXid_mem_txnXids : t.writeXid ∈ txnXids t := by
  rw [mem_txnXids, Transaction.writeXid, liveStackSubxids]
  cases hs : t.subtxnStack.stack with
  | nil => exact .inl rfl
  | cons e stack => simp

theorem mem_xids_next {k : SnapshotFor} {m : TransactionManager} {xmax : ℕ}
    (hx : x ∈ (k.next (k.take m xmax) : Pc sh).xids) : x ∈ k.xids := by
  cases k with
  | begin isolation y =>
    simp only [SnapshotFor.next, SnapshotFor.take, Pc.xids, mem_txnXids,
      snapshotSection_currentXid, mem_live_snapshotSection,
      mem_rolledBack_snapshotSection, new,
      liveStackSubxids] at hx
    simp only [SnapshotFor.xids]
    simp_all
  | refresh t =>
    simp only [SnapshotFor.next, SnapshotFor.take, Pc.xids, mem_txnXids,
      snapshotSection_currentXid, mem_live_snapshotSection,
      mem_rolledBack_snapshotSection, OwnSubxids.fromSubtxn,
      mem_selfSubxids] at hx
    simp only [SnapshotFor.xids, mem_txnXids]
    tauto
  | statement t withSubxids => exact hx

end Mentions

/-! ## The thread that moves -/

variable {x : ℕ}

theorem xid_mem_of_txn? {pc : Pc sh} {t : Transaction} (h : pc.txn? = some t) (hx : x ∈ txnXids t) :
    x ∈ pc.xids := by
  cases pc with
  | alloc k y | clogged k y | published k y =>
    have hk : k.txn? = some t := h
    simp [Pc.xids, hk, hx]
  | xmax k y =>
    cases k with
    | begin isolation y => cases h
    | refresh t' | statement t' b =>
      cases h
      exact hx
  | floor t' | running t' =>
    cases h
    exact hx
  | aborting t' todo =>
    cases h
    exact mem_append_left _ hx
  | unpublishing t' y todo =>
    cases h
    exact mem_cons_of_mem _ (mem_append_left _ hx)
  | _ => cases h

theorem LocalInv.clear (hl : LocalInv s l) : LocalInv s.clear l := { hl with }

theorem SharedInv.clear (hs : SharedInv s) : SharedInv s.clear := { hs with }

section Sections

variable {pc pc' : Pc sh} {f todo : List ℕ} {k : AllocFor} {t : Transaction} {x : ℕ}

theorem LocalInv.goto (hl : LocalInv s ⟨pc, f⟩) (hover : pc.atEnd = false)
    (hpend : pc.pending = none) (hmen : ∀ x ∈ pc'.xids, x ∈ f) (hstatus : PcStatus s.mgr pc')
    (hfloor : ∀ t, pc'.txn? = some t → pc'.window = false →
      s.mgr.snapshotXmins.lookup t.xid = some t.snapshot.xmin)
    (hwalk : WalkOk s.mgr pc') : LocalInv s ⟨pc', f⟩ := by
  refine ⟨hl.range, hmen, hstatus, fun x hx hn => ?_, fun _ => hl.alive hover,
    fun x hx _ => hl.published x hx (by simp [hpend]), hl.links, hfloor, fun _ => hl.rows hover,
    hwalk⟩
  obtain ⟨k, hk⟩ := hl.entered x hx hn
  rw [show pc = _ from hk] at hpend
  cases hpend

theorem LocalInv.alloc (hs : SharedInv s) (hl : LocalInv s l) (k : AllocFor)
    (hk : l.pc.txn? = k.txn?) (hover : l.pc.atEnd = false) (hpend : l.pc.pending = none)
    (hwin : l.pc.window = false) : LocalInv (allocStep s l k).1 (allocStep s l k).2 := by
  have hfresh : s.mgr.clog.lookup s.mgr.nextXid = none := by
    cases hc : s.mgr.clog.lookup s.mgr.nextXid with
    | none => rfl
    | some st => exact absurd (hs.clog _ _ hc) (lt_irrefl _)
  simp only [allocStep]
  refine ⟨forall_mem_cons.2 ⟨⟨hs.next, Nat.lt_succ_self _⟩, fun x hx =>
      (hl.range x hx).imp_right Nat.lt_succ_of_lt⟩,
    forall_mem_cons.2 ⟨mem_cons_self, fun x hx => mem_cons_of_mem _ (hl.mentions x ?_)⟩, hfresh,
    forall_mem_cons.2 ⟨fun _ => ⟨k, rfl⟩, fun x hx hn => ?_⟩,
    fun _ => forall_mem_cons.2 ⟨fun st hst => ?_, hl.alive hover⟩,
    forall_mem_cons.2 ⟨fun hne => absurd rfl hne,
      fun x hx _ => hl.published x hx (by simp [hpend])⟩,
    forall_mem_cons.2 ⟨fun p hp => absurd (hs.links _ _ hp) (lt_irrefl _), fun x hx p hp =>
      mem_cons_of_mem _ (hl.links x hx p hp)⟩, fun t ht _ => hl.floor t (hk.trans ht) hwin,
    fun _ r hr hx => ?_, trivial⟩
  · cases ht : k.txn? with
    | none => simp [ht] at hx
    | some t => exact xid_mem_of_txn? (hk.trans ht) (by simpa [ht] using hx)
  · obtain ⟨k', hk'⟩ := hl.entered x hx hn
    rw [hk'] at hpend
    cases hpend
  · cases hfresh.symm.trans hst
  · rcases mem_cons.1 hx with hx | hx
    · exact absurd (hs.rows r hr).2.2 (by simp [hx])
    · exact (hl.rows hover r hr hx).imp_right (mem_cons_of_mem _)

theorem LocalInv.clogInsert (hl : LocalInv s (⟨.alloc k x, f⟩ : Thread sh)) :
    LocalInv { s with mgr := s.mgr.clogInsert x } (⟨.clogged k x, f⟩ : Thread sh) := by
  have hlook : ∀ y, (s.mgr.clogInsert x).clog.lookup y =
      if y = x then some .inProgress else s.mgr.clog.lookup y := fun y =>
    lookup_insert_eq _ _ _ _
  refine ⟨hl.range, hl.mentions, trivial, fun y hy hn => ?_, fun _ y hy st hst => ?_,
    fun y hy hne hin => ?_, hl.links, hl.floor, fun _ => hl.rows rfl, trivial⟩
  · simp only [hlook] at hn
    split_ifs at hn with hyx
    obtain ⟨k', hk'⟩ := hl.entered y hy hn
    cases hk'
    exact absurd rfl hyx
  · simp only [hlook] at hst
    split_ifs at hst with hyx
    · cases hst
      rfl
    · exact hl.alive rfl y hy st hst
  · have hyx : y ≠ x := fun h => hne (by simp [Pc.pending, h])
    simp only [hlook, if_neg hyx] at hin
    exact hl.published y hy (by simp [Pc.pending, Ne.symm hyx]) hin

theorem LocalInv.publish (hl : LocalInv s (⟨.clogged k x, f⟩ : Thread sh)) :
    LocalInv { s with mgr := s.mgr.publish x } (⟨.published k x, f⟩ : Thread sh) := by
  refine ⟨hl.range, hl.mentions, trivial, fun y hy hn => (nomatch hl.entered y hy hn),
    fun _ => hl.alive rfl, fun y hy _ hin => ?_, hl.links, hl.floor, fun _ => hl.rows rfl, trivial⟩
  simp only [mem_inProgress_publish]
  by_cases hyx : y = x
  · exact .inl hyx
  · exact .inr (hl.published y hy (by simp [Pc.pending, Ne.symm hyx]) hin)

/-- Linking a subtransaction to its parent, both of the family. -/
theorem LocalInv.linkSubxid {p : ℕ} (hl : LocalInv s l) (hp : p ∈ l.family) :
    LocalInv { s with mgr := s.mgr.linkSubxid x p } l := by
  refine { hl with links := fun y hy q hq => ?_ }
  simp only [TransactionManager.linkSubxid, lookup_insert_eq] at hq
  split_ifs at hq with hyx
  · cases hq
    exact hp
  · exact hl.links y hy q hq

theorem LocalInv.recordFloor (hl : LocalInv s (⟨.floor t, f⟩ : Thread sh)) :
    LocalInv { s with mgr := s.mgr.recordFloor t.xid t.snapshot.xmin }
      (⟨.running t, f⟩ : Thread sh) := by
  refine ⟨hl.range, hl.mentions, trivial, fun y hy hn => (nomatch hl.entered y hy hn),
    fun _ => hl.alive rfl, hl.published, hl.links, fun t' ht _ => ?_, fun _ => hl.rows rfl, trivial⟩
  cases ht
  simp only [TransactionManager.recordFloor, AList.lookup_insert]

theorem LocalInv.clogAbort (hl : LocalInv s (⟨.aborting t (x :: todo), f⟩ : Thread sh))
    (hx : s.mgr.clogInProgress x = true) :
    LocalInv { s with mgr := s.mgr.clogAbort x } (⟨.unpublishing t x todo, f⟩ : Thread sh) := by
  rw [TransactionManager.clogAbort, if_pos hx]
  refine ⟨hl.range, fun y hy => hl.mentions y ?_, AList.lookup_insert _, fun y hy hn => ?_,
    fun _ y hy st hst => ?_, fun y hy _ hin => ?_, hl.links, hl.floor, fun _ => hl.rows rfl,
    trivial⟩
  · simp only [Pc.xids, mem_cons, mem_append] at hy ⊢
    tauto
  · simp only [lookup_insert_eq] at hn
    split_ifs at hn
    exact nomatch hl.entered y hy hn
  · simp only [lookup_insert_eq] at hst
    split_ifs at hst
    · cases hst
      rfl
    · exact hl.alive rfl y hy st hst
  · simp only [lookup_insert_eq] at hin
    split_ifs at hin with hyx
    · cases hin
    · exact hl.published y hy nofun hin

theorem LocalInv.unpublish (hl : LocalInv s (⟨.unpublishing t x todo, f⟩ : Thread sh)) :
    LocalInv { s with mgr := s.mgr.unpublish x } (⟨.aborting t todo, f⟩ : Thread sh) := by
  refine ⟨hl.range, fun y hy => hl.mentions y (mem_cons_of_mem _ hy), trivial,
    fun y hy hn => (nomatch hl.entered y hy hn), fun _ => hl.alive rfl, fun y hy _ hin => ?_,
    hl.links, hl.floor, fun _ => hl.rows rfl, trivial⟩
  have hyx : y ≠ x := by
    rintro rfl
    exact absurd (hin.symm.trans hl.status) (by simp)
  simp only [TransactionManager.unpublish, mem_filter, decide_eq_true_eq]
  exact ⟨hl.published y hy nofun hin, hyx⟩

theorem LocalInv.terminate {st : XidStatus} {m : TransactionManager}
    {taken : List (Snapshot × List ℕ)} (hl : LocalInv s (⟨.running t, f⟩ : Thread sh))
    (hst : st.isTerminal = true)
    (hend : s.mgr.terminateWithSubxids t.xid t.committedSubxidFamily st false = .ok m) :
    LocalInv { s with mgr := m, taken := taken }
      (⟨.ending t.committedSubxidFamily, f⟩ : Thread sh) := by
  have hclog := clogStep_terminate hst hend
  obtain ⟨-, hlook, hrun, hnext, -, hlinks⟩ := terminate_ok hend
  refine ⟨by simpa only [hnext] using hl.range,
    fun y hy => hl.mentions y (mem_txnXids_of_committed hy), trivial, fun y hy hn => ?_, nofun,
    fun y hy _ hin => ?_, by simpa only [hlinks] using hl.links, nofun, nofun, trivial⟩
  · have hn' : s.mgr.clog.lookup y = none := by
      rcases hclog y with h | ⟨h, -⟩ | ⟨-, st', h, -⟩
      · exact h.symm.trans hn
      · exact h
      · exact absurd (h.symm.trans hn) (by simp)
    obtain ⟨_, ⟨⟩⟩ := hl.entered y hy hn'
  · -- An XID that still runs after the end is none of the family that ended.
    have hne : y ≠ t.xid ∧ y ∉ t.committedSubxidFamily ∧
        s.mgr.clog.lookup y = some .inProgress := by
      have h := hlook y
      simp only at hin
      rw [hin] at h
      split_ifs at h with h₁ h₂
      · cases h
        cases hst
      · exfalso
        revert h
        cases hc : s.mgr.clog.lookup y with
        | none => simp [foldStatus]
        | some st' =>
          cases st' <;> simp [foldStatus]
          rintro rfl
          cases hst
      · exact ⟨h₁, h₂, h.symm⟩
    rw [hrun]
    exact ⟨hl.published y hy (by simp [Pc.pending]) hne.2.2, hne.1, hne.2.1⟩

theorem LocalInv.forget {folded : List ℕ} (hl : LocalInv s (⟨.ending folded, f⟩ : Thread sh)) :
    LocalInv { s with mgr := s.mgr.forgetSubxidParents folded } (⟨.ended, f⟩ : Thread sh) := by
  refine ⟨hl.range, nofun, trivial, fun y hy hn => (nomatch hl.entered y hy hn), nofun,
    hl.published, fun y hy p hp => ?_, nofun, nofun, trivial⟩
  simp only [lookup_forgetSubxidParents] at hp
  split_ifs at hp
  exact hl.links y hy p hp

end Sections

/-! ## Walks of the commit log -/

section Walk

variable {m m' : TransactionManager}

theorem walkOk_mono (hstep : ClogStep m m') {pc : Pc sh} (h : WalkOk m pc) : WalkOk m' pc := by
  have hkey : ∀ y, m.clog.lookup y ≠ none →
      m'.clog.lookup y ≠ none ∧
        (m'.clog.lookup y = some .inProgress → m.clog.lookup y = some .inProgress) := by
    intro y hy
    rcases hstep y with he | ⟨hn, -⟩ | ⟨hin, st, hst, -⟩
    · rw [he]
      exact ⟨hy, id⟩
    · exact absurd hn hy
    · exact ⟨by simp [hst], fun _ => hin⟩
  cases pc with
  | walking todo oldest start | walked oldest start =>
    intro y hy
    obtain ⟨hne, hin⟩ := h y hy
    exact ⟨(hkey y hne).1, fun h' => hin ((hkey y hne).2 h')⟩
  | _ => trivial

variable {y : ℕ}

theorem mem_inProgressKeys :
    y ∈ m.clog.keysWhere (·.isInProgress) ↔ m.clog.lookup y = some .inProgress := by
  rw [mem_keysWhere]
  constructor
  · rintro ⟨st, hst, hin⟩
    cases st with
    | inProgress => exact hst
    | committed | aborted | frozen => cases hin
  · intro h
    exact ⟨_, h, rfl⟩

theorem walkOk_start :
    WalkOk m (.walking (List.finRange sh.count) none (m.clog.keysWhere (·.isInProgress)) : Pc sh) :=
  fun y hy => ⟨by simp [mem_inProgressKeys.1 hy], fun _ => .inl (mem_finRange _)⟩

theorem minOption_le {a b : Option ℕ} (h : (∃ o, a = some o ∧ o ≤ y) ∨ ∃ o, b = some o ∧ o ≤ y) :
    ∃ o, minOption a b = some o ∧ o ≤ y := by
  rcases h with ⟨o, rfl, ho⟩ | ⟨o, rfl, ho⟩
  · cases b with
    | none => exact ⟨o, rfl, ho⟩
    | some b => exact ⟨min o b, rfl, (min_le_left _ _).trans ho⟩
  · cases a with
    | none => exact ⟨o, rfl, ho⟩
    | some a => exact ⟨min a o, rfl, (min_le_right _ _).trans ho⟩

variable {oldest : Option ℕ} {start : List ℕ}

theorem walkOk_shard {k : Fin sh.count} {todo : List (Fin sh.count)}
    (h : WalkOk m (.walking (k :: todo) oldest start : Pc sh)) :
    WalkOk m (.walking todo (minOption oldest (shardInProgress m k).min?) start : Pc sh) := by
  intro y hy
  refine ⟨(h y hy).1, fun hin => ?_⟩
  rcases (h y hy).2 hin with hk | ho
  · rcases mem_cons.1 hk with hk | hk
    · have hmem : y ∈ shardInProgress m k := by
        simp only [shardInProgress, mem_filter, decide_eq_true_eq]
        exact ⟨mem_inProgressKeys.2 hin, hk⟩
      refine .inr (minOption_le (.inr ?_))
      cases hmin : (shardInProgress m k).min? with
      | none =>
        rw [min?_eq_none_iff] at hmin
        rw [hmin] at hmem
        cases hmem
      | some a => exact ⟨a, rfl, (min?_eq_some_iff.1 hmin).2 y hmem⟩
    · exact .inl hk
  · exact .inr (minOption_le (.inl ho))

theorem walkOk_done {d : ℕ} (h : WalkOk m (.walking [] oldest start : Pc sh)) :
    WalkOk m (.walked (oldest.getD d) start : Pc sh) := by
  intro y hy
  refine ⟨(h y hy).1, fun hin => ?_⟩
  rcases (h y hy).2 hin with hk | ⟨o, rfl, ho⟩
  · cases hk
  · exact ho

end Walk

/-! ## Rows -/

/-- The XIDs of a transaction that has not ended are not reported committed. -/
theorem status_of_alive (hl : LocalInv s l) (hover : l.pc.atEnd = false) (hx : x ∈ l.family) :
    (s.mgr.status x).isCommitted = false := by
  have hclog : ∀ y ∈ l.family, ((s.mgr.clog.lookup y).getD .inProgress).isCommitted = false := by
    intro y hy
    cases hst : s.mgr.clog.lookup y with
    | none => rfl
    | some st => exact hl.alive hover y hy st hst
  have h3 := (hl.range x hx).1
  unfold status
  rw [if_neg (by omega), if_neg (by omega)]
  simp only
  split_ifs with hin
  · cases hp : s.mgr.subxidParent.lookup x with
    | none => exact hclog x hx
    | some p =>
      simp only
      split_ifs
      · exact hclog p (hl.links x hx p hp)
      · exact hclog x hx
  · exact hclog x hx

theorem rows_step (hl : LocalInv s l) (hs : SharedInv s) (h : SectionStep s l a s' l')
    {r : TupleHeader} (hr : r ∈ s'.rows) :
    r ∈ s.rows ∨
      (r.infomask = {} ∧ r.xmin ∈ l.family ∧ r.xmax = 0) ∨
      ∃ r₀ ∈ s.rows, r.infomask = {} ∧ r.xmin = r₀.xmin ∧ r.xmax ∈ l.family ∧
        (r₀.xmin ∈ l.family ∨ (s.mgr.status r₀.xmin).isCommitted = true) := by
  have hmen := hl.mentions
  cases h with
  | insertRow hpc =>
    rw [hpc] at hmen
    rcases mem_append.1 hr with hr | hr
    · exact .inl hr
    · rw [mem_singleton] at hr
      subst hr
      exact .inr (.inl ⟨rfl, hmen _ writeXid_mem_txnXids, rfl⟩)
  | @deleteRow t k r₀ hpc hrow hvis =>
    rw [hpc] at hmen
    have hmem := mem_of_getElem? hrow
    rcases mem_or_eq_of_mem_set hr with hr | rfl
    · exact .inl hr
    · have hmask := (hs.rows r₀ hmem).1
      refine .inr (.inr ⟨r₀, hmem, ?_, rfl, hmen _ writeXid_mem_txnXids, ?_⟩)
      · simp [TupleHeader.markDeleted, hmask]
      · rcases committedBefore_of_seen (by rw [hvis]; rfl) with hf | hown | hcom
        · simp [hmask] at hf
        · refine .inl (hmen _ (mem_txnXids.2 ?_))
          rw [Snapshot.isCurrentXid_iff] at hown
          tauto
        · exact .inr (isCommittedBeforeSnapshot_iff.1 hcom).2
  | _ => exact .inl hr

/-! ## Every section keeps the invariants -/

/-- A family grows only by the XID that the allocator hands out. -/
theorem family_step (h : SectionStep s l a s' l') :
    (l'.family = l.family ∧ s'.mgr.nextXid = s.mgr.nextXid) ∨
      (l'.family = s.mgr.nextXid :: l.family ∧ s'.mgr.nextXid = s.mgr.nextXid + 1) := by
  cases h with
  | allocBegin | allocSavepoint | allocRollback => exact .inr ⟨rfl, rfl⟩
  | clogAbort hpc hx =>
    rw [clogAbort, if_pos hx]
    exact .inl ⟨rfl, rfl⟩
  | commit hpc hend | abort hpc hend =>
    exact .inl ⟨rfl, (terminate_ok hend).2.2.2.1⟩
  | _ => exact .inl ⟨rfl, rfl⟩

section

variable (hs : SharedInv s) (hl : LocalInv s l)
include hs hl

theorem sharedInv_step (h : SectionStep s l a s' l') : SharedInv s' := by
  have hframe := frame_step hl h
  have hclog := clogStep_step hl h
  have hmen := hl.mentions
  refine ⟨hs.next.trans hframe.next, fun x st hx => ?_, fun x p hx => ?_, fun r hr => ?_⟩
  · rcases hclog x with he | ⟨hn, -⟩ | ⟨hin, -⟩
    · exact (hs.clog x st (he.symm.trans hx)).trans_le hframe.next
    · -- Only the XID being entered is new, and it is of the family.
      by_contra hge
      have hnot : x ∉ l'.family := by
        intro hmem
        rcases family_step h with ⟨hf, -⟩ | ⟨hf, hnext⟩
        · rw [hf] at hmem
          exact hge ((hl.range x hmem).2.trans_le hframe.next)
        · rw [hf, mem_cons] at hmem
          rcases hmem with rfl | hmem
          · exact hge (by omega)
          · exact hge ((hl.range x hmem).2.trans_le hframe.next)
      rw [hframe.clog x hnot, hn] at hx
      cases hx
    · exact (hs.clog x _ hin).trans_le hframe.next
  · cases h with
    | @pushSavepoint t name y hpc | @restamp t name y o st hpc =>
      rw [hpc] at hmen
      simp only [linkSubxid, lookup_insert_eq] at hx
      split_ifs at hx with hxy
      · subst hxy
        exact (hl.range x (hmen x mem_cons_self)).2
      · exact hs.links x p hx
    | forget =>
      simp only [lookup_forgetSubxidParents] at hx
      split_ifs at hx
      exact hs.links x p hx
    | commit hpc hend | abort hpc hend =>
      obtain ⟨-, -, -, hnext, -, hlinks⟩ := terminate_ok hend
      simp only [hlinks] at hx
      simpa only [hnext] using hs.links x p hx
    | allocBegin | allocSavepoint | allocRollback =>
      exact Nat.lt_succ_of_lt (hs.links x p hx)
    | clogAbort hpc hin =>
      rw [clogAbort, if_pos hin] at hx ⊢
      exact hs.links x p hx
    | _ => exact hs.links x p hx
  · rcases rows_step hl hs h hr with hr | ⟨hmask, hmem, -⟩ | ⟨r₀, hr₀, hmask, hxmin, -, -⟩
    · obtain ⟨h₁, h₂, h₃⟩ := hs.rows r hr
      exact ⟨h₁, h₂, h₃.trans_le hframe.next⟩
    · obtain ⟨h₁, h₂⟩ := hl.range r.xmin hmem
      exact ⟨hmask, h₁, h₂.trans_le hframe.next⟩
    · obtain ⟨-, h₂, h₃⟩ := hs.rows r₀ hr₀
      rw [← hxmin] at h₂ h₃
      exact ⟨hmask, h₂, h₃.trans_le hframe.next⟩

/-- A row section keeps the invariant of the thread that writes. -/
theorem LocalInv.rowStep {rows : List TupleHeader} (h : SectionStep s l a { s with rows } l) :
    LocalInv { s with rows } l := by
  refine { hl with rows := fun hover r hr hx => ?_ }
  rcases rows_step hl hs h hr with hr | ⟨-, -, h0⟩ | ⟨r₀, -, -, -, hmax, -⟩
  · exact hl.rows hover r hr hx
  · exact .inl h0
  · exact .inr hmax

theorem localInv_step (h : SectionStep s l a s' l') : LocalInv s' l' := by
  obtain ⟨pc, f⟩ := l
  have hmen := hl.mentions
  have hfloor := hl.floor
  cases h with
  | allocBegin hpc | allocSavepoint hpc | allocRollback hpc =>
    cases hpc
    exact hl.alloc hs _ rfl rfl rfl rfl
  | clogInsert hpc =>
    cases hpc
    exact hl.clogInsert
  | publish hpc =>
    cases hpc
    exact hl.publish
  | @pushSavepoint t name x hpc =>
    cases hpc
    have hl' := hl.linkSubxid (x := x) (hmen _ (mem_cons_of_mem _ xid_mem_txnXids))
    refine hl'.goto rfl rfl (fun y hy => hmen y ?_) trivial (fun t' ht _ => ?_) trivial
    · rcases mem_txnXids_savepoint (mem_txnXids_applyOwnSubxids hy) with rfl | hy
      · exact mem_cons_self
      · exact mem_cons_of_mem _ hy
    · cases ht
      exact hfloor t rfl rfl
  | @restamp t name x o st hpc hroll =>
    cases hpc
    have hl' := hl.linkSubxid (x := x) (hmen _ (mem_cons_of_mem _ xid_mem_txnXids))
    obtain ⟨hab, htx⟩ := mem_txnXids_rollback hroll
    refine hl'.goto rfl rfl (fun y hy => hmen y (mem_cons.2 ?_)) trivial (fun t' ht _ => ?_)
      trivial
    · rcases mem_append.1 hy with hy | hy
      · exact htx y hy
      · rcases mem_append.1 hy with hy | hy
        · exact .inr (hab y hy)
        · exact htx y (mem_txnXids.2 (by tauto))
    · cases ht
      exact hfloor t rfl rfl
  | loadXmaxBegin hpc =>
    cases hpc
    refine hl.goto rfl rfl (fun y hy => hmen y ?_) le_rfl nofun trivial
    rw [Pc.xids, SnapshotFor.xids, mem_singleton] at hy
    exact hy ▸ mem_cons_self
  | @loadXmaxRefresh t hpc =>
    cases hpc
    refine hl.goto rfl rfl hmen le_rfl (fun t' ht _ => ?_) trivial
    cases ht
    exact hfloor t rfl rfl
  | loadXmaxStatement hpc =>
    cases hpc
    exact hl.goto rfl rfl hmen le_rfl hfloor trivial
  | @snapshotSection k xmax hpc =>
    cases hpc
    have hgo : LocalInv s (⟨k.next (k.take s.mgr xmax), f⟩ : Thread sh) := by
      refine hl.goto rfl rfl (fun y hy => hmen y (mem_xids_next hy)) (by cases k <;> trivial)
        (fun t' ht hw => ?_) (by cases k <;> trivial)
      cases k with
      | begin | refresh => cases hw
      | statement t b =>
        cases ht
        exact hfloor _ rfl rfl
    exact { hgo with }
  | recordFloor hpc =>
    cases hpc
    exact hl.recordFloor
  | @refreshFrozen t hpc =>
    cases hpc
    refine hl.goto rfl rfl (fun y hy => hmen y (mem_txnXids_applyOwnSubxids hy)) trivial
      (fun t' ht _ => ?_) trivial
    cases ht
    exact hfloor t rfl rfl
  | @release t t' name sub hpc hrel =>
    cases hpc
    refine hl.goto rfl rfl (fun y hy => hmen y (mem_txnXids_release hrel hy)) trivial
      (fun t'' ht _ => ?_) trivial
    cases ht
    unfold releaseSavepoint at hrel
    split at hrel <;> cases hrel
    exact hfloor t rfl rfl
  | clogAbort hpc hx =>
    cases hpc
    exact hl.clogAbort hx
  | clogSkip hpc =>
    cases hpc
    refine hl.goto rfl rfl (fun y hy => hmen y ?_) trivial hfloor trivial
    simp only [Pc.xids, mem_append, mem_cons] at hy ⊢
    tauto
  | unpublish hpc =>
    cases hpc
    exact hl.unpublish
  | @rollbackDone t hpc =>
    cases hpc
    refine hl.goto rfl rfl
      (fun y hy => hmen y (mem_append_left _ (mem_txnXids_applyOwnSubxids hy))) trivial
      (fun t' ht _ => ?_) trivial
    cases ht
    exact hfloor t rfl rfl
  | commit hpc hend | abort hpc hend =>
    cases hpc
    exact hl.terminate rfl hend
  | forget hpc =>
    cases hpc
    exact hl.forget
  | insertRow hpc => exact hl.rowStep hs (.insertRow hpc)
  | deleteRow hpc hrow hvis => exact hl.rowStep hs (.deleteRow hpc hrow hvis)
  | walkStart hpc =>
    cases hpc
    exact hl.goto rfl rfl nofun trivial nofun walkOk_start
  | walkShard hpc =>
    cases hpc
    exact hl.goto rfl rfl nofun trivial nofun (walkOk_shard hl.walk)
  | walkDone hpc =>
    cases hpc
    exact hl.goto rfl rfl nofun trivial nofun (walkOk_done hl.walk)
  | @readFloors oldest start hpc =>
    cases hpc
    have hgo : LocalInv s (⟨.returned (s.mgr.horizonOf oldest), f⟩ : Thread sh) :=
      hl.goto rfl rfl nofun trivial nofun trivial
    exact { hgo with }

/-- **Freedom from interference.** A section of one thread keeps the invariant of another. -/
theorem localInv_other {k : Thread sh} (hk : LocalInv s k) (hd : Apart l k)
    (h : SectionStep s l a s' l') : LocalInv s' k ∧ Apart l' k := by
  have hframe := frame_step hl h
  have hapart : Apart l' k := by
    intro x hx hxk
    rcases family_step h with ⟨hf, -⟩ | ⟨hf, -⟩
    · rw [hf] at hx
      exact hd x hx hxk
    · rw [hf, mem_cons] at hx
      rcases hx with rfl | hx
      · exact lt_irrefl _ (hk.range _ hxk).2
      · exact hd x hx hxk
  have hout : ∀ x ∈ k.family, x ∉ l'.family := fun x hx hx' => hapart x hx' hx
  have hclog : ∀ x ∈ k.family, s'.mgr.clog.lookup x = s.mgr.clog.lookup x := fun x hx =>
    hframe.clog x (hout x hx)
  refine ⟨⟨fun x hx => ?_, hk.mentions, ?_, fun x hx hn => ?_, fun hover x hx st hst => ?_,
    fun x hx hp hin => ?_, fun x hx p hp => ?_, fun t ht hw => ?_, fun hover r hr hx => ?_,
    walkOk_mono (clogStep_step hl h) hk.walk⟩, hapart⟩
  · obtain ⟨h₁, h₂⟩ := hk.range x hx
    exact ⟨h₁, h₂.trans_le hframe.next⟩
  · have hst := hk.status
    have hmen := hk.mentions
    cases hpc : k.pc with
    | alloc k' x | unpublishing t x todo =>
      rw [hpc] at hst hmen
      exact (hclog x (hmen x mem_cons_self)).trans hst
    | xmax k' x =>
      rw [hpc] at hst
      exact hst.trans hframe.next
    | _ => trivial
  · exact hk.entered x hx ((hclog x hx).symm.trans hn)
  · exact hk.alive hover x hx st ((hclog x hx).symm.trans hst)
  · rw [hframe.running x (hout x hx)]
    exact hk.published x hx hp ((hclog x hx).symm.trans hin)
  · rw [hframe.links x (hout x hx)] at hp
    exact hk.links x hx p hp
  · have hxid := hk.mentions _ (xid_mem_of_txn? ht xid_mem_txnXids)
    rw [hframe.floors _ (hout _ hxid)]
    exact hk.floor t ht hw
  · rcases rows_step hl hs h hr with hr | ⟨-, hmem, -⟩ | ⟨r₀, -, -, hxmin, -, hsee⟩
    · exact hk.rows hover r hr hx
    · exact absurd hx (hd _ hmem)
    · -- The deleter saw the row, so another live transaction did not insert it.
      rw [hxmin] at hx
      rcases hsee with hmem | hcom
      · exact absurd hx (hd _ hmem)
      · rw [status_of_alive hk hover hx] at hcom
        cases hcom

end

theorem localInv_init : LocalInv ({} : Shared) ({ pc := .idle, family := [] } : Thread sh) := by
  constructor <;> simp [Pc.xids, PcStatus, WalkOk, Pc.txn?]

theorem sharedInv_init : SharedInv {} := by
  constructor <;> simp

/-- **The invariants of sessions hold in every reachable state.** -/
theorem reach_inv {n : ℕ} {C : Program.State Shared (Thread sh) n → Fin n × Act → Prop}
    {s : Program.State Shared (Thread sh) n} (h : (machine sh n).Reach C s) :
    Program.Inv SharedInv LocalInv Apart s := by
  refine Program.reach_inv (fun l k hd x hx hxl => hd x hxl hx) sharedInv_init localInv_init
    (fun x hx => by cases hx) ?_ ?_ h
  · intro s l a s' l' hs hl hstep
    have hc := sectionStep_cases hstep
    exact ⟨sharedInv_step hs.clear hl.clear hc, localInv_step hs.clear hl.clear hc⟩
  · intro s l a s' l' k hs hl hk hd hstep
    exact localInv_other hs.clear hl.clear hk.clear hd (sectionStep_cases hstep)

end UltraSql.Sessions
