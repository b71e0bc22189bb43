import UltraSql.Heap.UndoChain

/-!
# Who wrote, and who sees it

What the writes of a slot have to do with the transactions: each carries an XID of a transaction
that exists, a live one belongs to a transaction that can still commit or has a visit to come, and
of two writes the newer one's transaction saw the older one.

**Theorem (`undoWriterVisible_eq_sees`).** The reader's check of an undo record is the abstract
`sees`.

**Theorem (`Follows.sees`).** Who sees a write sees what it follows.
-/

namespace UltraSql.Heap

open Option
open Timeline (Visit Client Horizon Turn)
open Savepoints (Own txnXids mem_txnXids)
open Bool (not_eq_true false_eq_true)

variable {t t' : Timeline.State} {a b st : Stamp} {x y z k : ℕ} {c c' d : Client} {v : Visit}
  {w : Write}

/-- The snapshot of a transaction, at some command of it. -/
def snapshotAt (c : Client) (k : ℕ) : Snapshot := { c.handle.snapshot with currentCommand := k }

theorem snapshotAt_current (h : c.handle.snapshot.currentCommand = c.handle.currentCommand) :
    snapshotAt c c.handle.currentCommand = c.handle.snapshot := by
  unfold snapshotAt
  rw [← h]

/-- The transaction that wrote is there. -/
def Held (t : Timeline.State) (st : Stamp) : Prop :=
  ∃ c, t.clients.lookup st.owner = some c ∧ st.xid ∈ txnXids c.handle ∧
    st.command ≤ c.handle.currentCommand

/-- The writes of `z` that the visit `v` undoes may be in the page. -/
def Holds (c : Client) (z : ℕ) (v : Visit) : Prop :=
  match c.phase with
  | .running | .committed => Own c.handle z
  | .undoing todo => Own c.handle z ∨ (z, v) ∈ todo
  | .aborting todo => (z, v) ∈ todo
  | .aborted => False

def Alive (t : Timeline.State) (w : Write) : Prop :=
  ∃ c, t.clients.lookup w.stamp.owner = some c ∧ Holds c w.stamp.xid w.change.visit

/-- The transaction rolls back or has done so. -/
def Failed (c : Client) : Prop := c.phase = .aborted ∨ ∃ todo, c.phase = .aborting todo

theorem Failed.ne_running {c : Client} (hf : Failed c) : c.phase ≠ .running := by
  rcases hf with hf | ⟨todo, hf⟩ <;> rw [hf] <;> nofun

theorem Failed.ne_committed {c : Client} (hf : Failed c) : c.phase ≠ .committed := by
  rcases hf with hf | ⟨todo, hf⟩ <;> rw [hf] <;> nofun

/-- The write does not count any more, for anyone. -/
def Gone (t : Timeline.State) (st : Stamp) : Prop :=
  ∃ c, t.clients.lookup st.owner = some c ∧
    (st.xid ∈ c.handle.subtxnStack.rolledBack ∨ Failed c)

/-- The newer write `a` was made by the transaction of `b`, with a command that is not earlier, or
by one whose snapshot saw the commit of `b`. -/
inductive Follows (t : Timeline.State) (a b : Stamp) : Prop
  | own (ho : a.owner = b.owner) (hk : b.command ≤ a.command)
  | seen (c d : Client) (e : ℕ) (hc : t.clients.lookup a.owner = some c)
    (hd : t.clients.lookup b.owner = some d) (hp : d.phase = .committed)
    (hown : Own d.handle b.xid) (he : t.ended b.owner = some e) (hlt : e < c.view)

/-! ## What is seen -/

theorem sees_own (hc : t.clients.lookup x = some c) (ho : st.owner = x) :
    sees t x k st = true ↔ Own c.handle st.xid ∧ st.command < k := by
  unfold sees
  rw [ho, hc]
  simp

theorem sees_foreign (hc : t.clients.lookup x = some c) (hd : t.clients.lookup st.owner = some d)
    (ho : st.owner ≠ x) :
    sees t x k st = true ↔ d.phase = .committed ∧ Own d.handle st.xid ∧
      ∃ e, t.ended st.owner = some e ∧ e < c.view := by
  unfold sees
  rw [hc, hd]
  simp only [ho, if_false, Bool.and_eq_true, decide_eq_true_eq, and_assoc]
  cases t.ended st.owner <;> simp

theorem Held.ne_zero (h : Held t st) (hi : Timeline.Inv t) : st.xid ≠ 0 := by
  obtain ⟨c, hc, hx, -⟩ := h
  have := ((hi.client _ c hc).range _ hx).1
  omega

theorem Held.xid_eq (hst : Held t st) (hs : Timeline.Solo t) : st.xid = st.owner := by
  obtain ⟨d, hd, hx, -⟩ := hst
  exact hs _ d hd _ hx

theorem Held.own (hst : Held t st) (hs : Timeline.Solo t) (hi : Timeline.Inv t)
    (hd : t.clients.lookup st.owner = some d) : Own d.handle st.xid := by
  rw [hst.xid_eq hs]
  exact .inl (hi.client _ d hd).xid.symm

/-- How the snapshot of `x`, at the command `k`, has the XID of a write that nobody has undone. -/
structure KnownXid (t : Timeline.State) (x : ℕ) (c : Client) (k : ℕ) (st : Stamp) : Prop where
  rolledBack : (snapshotAt c k).ownSubxidRolledBack st.xid = false
  own : st.owner = x → (snapshotAt c k).isCurrentXid st.xid = true ∧
    (sees t x k st = true ↔ st.command < k)
  foreign : st.owner ≠ x → (snapshotAt c k).isCurrentXid st.xid = false ∧
    (isCommittedBeforeSnapshot st.xid (snapshotAt c k) t.mgr.status = true ↔ sees t x k st = true)

section

variable (hi : Timeline.Inv t) (hc : t.clients.lookup x = some c)
include hi hc

/-- A write of the reader's own transaction, as its snapshot has it. -/
theorem own_xid_iff :
    (c.handle.snapshot.isCurrentXid z = true ↔ Own c.handle z) ∧
      (c.handle.snapshot.ownSubxidRolledBack z = true ↔ z ∈ c.handle.subtxnStack.rolledBack) :=
  ⟨(hi.client x c hc).isCurrentXid_iff, (hi.client x c hc).rolledBack_iff⟩

/-- The XID of another transaction is none of the reader's. -/
theorem foreign_xid (hst : Held t st) (ho : st.owner ≠ x) :
    c.handle.snapshot.isCurrentXid st.xid = false ∧
      c.handle.snapshot.ownSubxidRolledBack st.xid = false := by
  obtain ⟨d, hd, hx, -⟩ := hst
  have hnot : st.xid ∉ txnXids c.handle := hi.apart _ _ d c hd hc ho _ hx
  obtain ⟨h₁, h₂⟩ := own_xid_iff (z := st.xid) hi hc
  refine ⟨?_, ?_⟩
  · rw [← not_eq_true, h₁]
    exact fun h => hnot h.mem
  · rw [← not_eq_true, h₂]
    exact fun h => hnot (mem_txnXids.2 (.inr h))

theorem committedBefore_iff_sees (hst : Held t st) (ho : st.owner ≠ x) :
    isCommittedBeforeSnapshot st.xid c.handle.snapshot t.mgr.status = true ↔
      sees t x k st = true := by
  obtain ⟨d, hd, hx, -⟩ := hst
  rw [hi.committedBefore_iff hc hd ho.symm hx, sees_foreign hc hd ho]
  tauto

/-- A write of the reader's own transaction counts, or the snapshot knows that it does not. -/
theorem own_or_rolledBack (hst : Held t st) (ho : st.owner = x) :
    Own c.handle st.xid ∧ (snapshotAt c k).isCurrentXid st.xid = true ∧
        (snapshotAt c k).ownSubxidRolledBack st.xid = false ∨
      ¬ Own c.handle st.xid ∧ (snapshotAt c k).ownSubxidRolledBack st.xid = true := by
  obtain ⟨d, hd, hx, -⟩ := hst
  subst ho
  obtain rfl := mem_unique hc hd
  obtain ⟨h₁, h₂⟩ := own_xid_iff (z := st.xid) hi hc
  rcases mem_txnXids.1 hx with hown | hr
  · refine .inl ⟨hown, h₁.2 hown, ?_⟩
    rw [← not_eq_true]
    exact fun hr => (hi.client _ c hc).disjoint _ (h₂.1 hr) hown
  · exact .inr ⟨(hi.client _ c hc).disjoint _ hr, h₂.2 hr⟩

theorem Held.knownXid (hst : Held t st) (hlive : st.owner = x → Own c.handle st.xid) :
    KnownXid t x c k st := by
  by_cases ho : st.owner = x
  · rcases own_or_rolledBack hi hc hst ho with ⟨hown, hcur, hrb⟩ | ⟨hno, -⟩
    · refine ⟨hrb, fun _ => ⟨hcur, ?_⟩, fun hne => absurd ho hne⟩
      rw [sees_own hc ho, and_iff_right hown]
    · exact absurd (hlive ho) hno
  · obtain ⟨h₁, h₂⟩ := foreign_xid hi hc hst ho
    exact ⟨h₂, fun h => absurd h ho, fun _ => ⟨h₁, committedBefore_iff_sees hi hc hst ho⟩⟩

/-- **The check of an undo record is `sees`.** -/
theorem undoWriterVisible_eq_sees (hst : Held t st) :
    undoWriterVisible st.xid st.command (snapshotAt c k) t.mgr.status = sees t x k st := by
  unfold undoWriterVisible
  rw [Bool.eq_iff_iff]
  by_cases ho : st.owner = x
  · rw [sees_own hc ho]
    rcases own_or_rolledBack (k := k) hi hc hst ho with ⟨hown, hcur, hrb⟩ | ⟨hno, hrb⟩
    · simp only [hrb, false_eq_true, if_false, hcur, if_true, decide_eq_true_eq, hown, true_and]
      rfl
    · simp [hrb, hno]
  · have hknown := hst.knownXid (k := k) hi hc fun h => absurd h ho
    obtain ⟨hcur, hiff⟩ := hknown.foreign ho
    rw [← hiff, isCommittedBeforeSnapshot]
    simp only [hcur, hknown.rolledBack, false_eq_true, if_false]

end

/-! ## Headers -/

/-- The header names its inserter. -/
structure Inserted (t : Timeline.State) (h : TupleHeader) (st : Stamp) : Prop where
  held : Held t st
  xmin : h.xmin = st.xid
  cmin : h.cmin = st.command
  frozen : h.infomask.frozen = false

theorem not_isCurrentXid_zero (hi : Timeline.Inv t) (hc : t.clients.lookup x = some c) :
    (snapshotAt c k).isCurrentXid 0 = false := by
  rw [← not_eq_true]
  intro h
  have hown := (own_xid_iff hi hc).1.1 (show c.handle.snapshot.isCurrentXid 0 = true from h)
  have := ((hi.client x c hc).range 0 hown.mem).1
  omega

namespace Inserted

variable {h : TupleHeader} (hh : Inserted t h st) (hi : Timeline.Inv t)
  (hc : t.clients.lookup x = some c)

include hh hi hc

theorem isVisible_eq :
    isVisible h (snapshotAt c k) t.mgr.status =
      if sees t x k st = true then
        if st.owner = x then isVisibleOwn h (snapshotAt c k)
        else isVisibleForeign h (snapshotAt c k) t.mgr.status
      else .invisible := by
  have hne := hh.held.ne_zero hi
  unfold isVisible
  rw [hh.frozen, hh.xmin]
  simp only [false_eq_true, if_false, Xid.isInvalid_iff, hne]
  by_cases ho : st.owner = x
  · -- the reader's own row
    rw [if_pos ho]
    rcases own_or_rolledBack (k := k) hi hc hh.held ho with ⟨hown, hcur, hrb⟩ | ⟨hno, hrb⟩
    · rw [hrb, hcur]
      simp only [false_eq_true, if_false, if_true]
      split_ifs with hseen
      · rfl
      · rw [isVisibleOwn, if_pos]
        rw [hh.cmin]
        by_contra hlt
        exact hseen ((sees_own hc ho).2 ⟨hown, not_le.1 hlt⟩)
    · rw [hrb, if_pos rfl, if_neg fun hseen => hno ((sees_own hc ho).1 hseen).1]
  · have hknown := hh.held.knownXid (k := k) hi hc fun h => absurd h ho
    obtain ⟨hcur, hiff⟩ := hknown.foreign ho
    rw [if_neg ho, hknown.rolledBack, hcur]
    simp only [false_eq_true, if_false]
    by_cases hseen : sees t x k st = true
    · rw [hiff.2 hseen, if_pos hseen]
      rfl
    · rw [if_neg hseen, not_eq_true _ |>.mp fun h => hseen (hiff.1 h)]
      rfl

omit hi in
theorem cmin_lt (ho : st.owner = x) (hseen : sees t x k st = true) : h.cmin < k := by
  rw [hh.cmin]
  exact ((sees_own hc ho).1 hseen).2

section

variable (hseen : sees t x k st = true) (hu : h.infomask.updatedInPlace = false)
include hseen hu

/-- The header names nobody who has written over the row. -/
theorem isVisible_unstamped (hx : h.xmax = 0) :
    isVisible h (snapshotAt c k) t.mgr.status =
      if st.owner = x then .visible else h.visibleOutcome := by
  rw [hh.isVisible_eq hi hc, if_pos hseen]
  split_ifs with ho
  · have hlt : ¬ (snapshotAt c k).currentCommand ≤ h.cmin := not_le.2 (hh.cmin_lt hc ho hseen)
    unfold isVisibleOwn
    rw [if_neg hlt, hx, hu, not_isCurrentXid_zero hi hc]
    rfl
  · unfold isVisibleForeign
    rw [hx]
    rfl

/-- The header names who has deleted the row or put another version in its place. -/
theorem isVisible_deleted {del : Stamp} (hdel : Held t del) (hknown : KnownXid t x c k del)
    (hown : st.owner = x → del.owner = x) (hxmax : h.xmax = del.xid)
    (hcmax : h.cmax = del.command) :
    isVisible h (snapshotAt c k) t.mgr.status =
      if sees t x k del = true then
        if st.owner = x then .deletedByOwn else .invisible
      else if st.owner = x then .visible else h.visibleOutcome := by
  have hne := hdel.ne_zero hi
  rw [hh.isVisible_eq hi hc, if_pos hseen]
  by_cases ho : st.owner = x
  · obtain ⟨hcur, hiff⟩ := hknown.own (hown ho)
    have hlt : ¬ (snapshotAt c k).currentCommand ≤ h.cmin := not_le.2 (hh.cmin_lt hc ho hseen)
    rw [if_pos ho, if_pos ho, if_pos ho]
    unfold isVisibleOwn
    rw [if_neg hlt, hxmax, hcmax, hknown.rolledBack, hu, hcur, Bool.and_false]
    simp only [false_eq_true, if_false, Bool.false_and, Bool.true_and, decide_eq_true_eq, hiff]
    rfl
  · rw [if_neg ho, if_neg ho, if_neg ho]
    unfold isVisibleForeign
    rw [hxmax, hcmax, hknown.rolledBack, hu]
    simp only [Xid.isInvalid_iff, hne, if_false, false_eq_true]
    by_cases hwo : del.owner = x
    · obtain ⟨hcur, hiff⟩ := hknown.own hwo
      simp only [hcur, if_true, hiff]
      rfl
    · obtain ⟨hcur, hiff⟩ := hknown.foreign hwo
      simp only [hcur, false_eq_true, if_false, hiff]

end

end Inserted

/-! ## What follows what -/

/-- What a running or committed transaction holds is its own. -/
theorem Alive.own (h : Alive t w) (hd : t.clients.lookup w.stamp.owner = some d)
    (hp : d.phase = .running ∨ d.phase = .committed) : Own d.handle w.stamp.xid := by
  obtain ⟨c, hc, hh⟩ := h
  obtain rfl := mem_unique hc hd
  unfold Holds at hh
  rcases hp with hp | hp <;> rw [hp] at hh <;> exact hh

section

variable (hi : Timeline.Inv t) (hc : t.clients.lookup x = some c) (hp : c.phase = .running)
include hi hc hp

/-- What does not count is not seen. -/
theorem Gone.sees_eq_false (h : Gone t st) : sees t x k st = false := by
  obtain ⟨d, hd, hg⟩ := h
  have hnot : st.xid ∈ d.handle.subtxnStack.rolledBack → ¬ Own d.handle st.xid := fun hr =>
    (hi.client _ d hd).disjoint _ hr
  rw [← not_eq_true]
  by_cases ho : st.owner = x
  · rw [sees_own hc ho]
    subst ho
    obtain rfl := mem_unique hc hd
    exact fun h => hg.elim (fun hr => hnot hr h.1) fun hf => hf.ne_running hp
  · rw [sees_foreign hc hd ho]
    exact fun h => hg.elim (fun hr => hnot hr h.2.1) fun hf => hf.ne_committed h.1

/-- **Who sees a write sees what it follows.** -/
theorem Follows.sees (hf : Follows t a w.stamp) (ha : Held t a) (hw : Alive t w)
    (hs : Heap.sees t x k a = true) : Heap.sees t x k w.stamp = true := by
  obtain ⟨da, hda, -⟩ := ha
  cases hf with
  | own ho hk =>
    by_cases hx : a.owner = x
    · have hx' : w.stamp.owner = x := ho ▸ hx
      rw [sees_own hc hx] at hs
      rw [sees_own hc hx']
      exact ⟨hw.own (hx' ▸ hc) (.inl hp), hk.trans_lt hs.2⟩
    · have hdw : t.clients.lookup w.stamp.owner = some da := ho ▸ hda
      obtain ⟨hcom, -, e, he, hlt⟩ := (sees_foreign hc hda hx).1 hs
      exact (sees_foreign hc hdw (ho ▸ hx)).2 ⟨hcom, hw.own hdw (.inr hcom), e, ho ▸ he, hlt⟩
  | seen ca d e hca hd hcom hown he hlt =>
    have hne : w.stamp.owner ≠ x := Timeline.ne_of_phase hc hd (by rw [hp, hcom]; nofun)
    refine (sees_foreign hc hd hne).2 ⟨hcom, hown, e, he, ?_⟩
    by_cases hx : a.owner = x
    · subst hx
      obtain rfl := mem_unique hc hca
      exact hlt
    · obtain ⟨-, -, ea, hea, hlta⟩ := (sees_foreign hc hca hx).1 hs
      exact hlt.trans_le (((hi.client _ ca hca).viewEnded ea hea).trans hlta.le)

end

/-- A writer follows what it sees. -/
theorem follows_of_sees (hc : t.clients.lookup x = some c) (hst : Held t st)
    (hs : Heap.sees t x k st = true) : Follows t ⟨x, z, k⟩ st := by
  by_cases ho : st.owner = x
  · exact .own ho.symm ((sees_own hc ho).1 hs).2.le
  · obtain ⟨d, hd, -⟩ := hst
    obtain ⟨hcom, hown, e, he, hlt⟩ := (sees_foreign hc hd ho).1 hs
    exact .seen c d e hc hd hcom hown he hlt

/-- Over a running transaction's write there are only its own. -/
theorem Follows.owner_eq (hf : Follows t a b) (hc : t.clients.lookup b.owner = some c)
    (hp : c.phase ≠ .committed) : a.owner = b.owner := by
  cases hf with
  | own ho => exact ho
  | seen _ d _ _ hd hcom =>
    obtain rfl := mem_unique hc hd
    exact absurd hcom hp

/-! ## Time passes -/

/-- What stays true of a transaction as time passes. -/
structure Moves (c c' : Client) : Prop where
  view : c.view ≤ c'.view
  command : c.handle.currentCommand ≤ c'.handle.currentCommand
  xids : ∀ z ∈ txnXids c.handle, z ∈ txnXids c'.handle
  rolled : ∀ z ∈ c.handle.subtxnStack.rolledBack, z ∈ c'.handle.subtxnStack.rolledBack
  committed : c.phase = .committed → c'.phase = .committed ∧ ∀ z, Own c.handle z → Own c'.handle z
  failed : Failed c → Failed c'

theorem Moves.refl (c : Client) : Moves c c :=
  ⟨le_rfl, le_rfl, fun _ h => h, fun _ h => h, fun h => ⟨h, fun _ h => h⟩, id⟩

structure Evolves (t t' : Timeline.State) : Prop where
  moves : ∀ y d, t.clients.lookup y = some d → ∃ d', t'.clients.lookup y = some d' ∧ Moves d d'
  ended : ∀ z e, t.ended z = some e → t'.ended z = some e
  horizon : ∀ h, Horizon t h → Horizon t' h

theorem Evolves.refl (t : Timeline.State) : Evolves t t :=
  ⟨fun _ d hd => ⟨d, hd, .refl d⟩, fun _ _ he => he, fun _ hh => hh⟩

theorem Turn.failed (h : Turn c c') (hf : Failed c) : Failed c' := by
  cases h with
  | stay hp =>
    unfold Failed
    rw [hp]
    exact hf
  | undo _ hp | commit hp | rollback hp =>
    rcases hf with hf | ⟨todo, hf⟩ <;> rw [hp] at hf <;> cases hf
  | abort _ hp => exact .inl hp

theorem evolves_step (hi : Timeline.Inv t) {act : Timeline.Act}
    (ht : Timeline.Timely t act = true) (h : Timeline.step t act = some t') : Evolves t t' := by
  refine ⟨fun y d hd => ?_, fun z e he => hi.ended_step h he, fun k hk => hk.step hi h⟩
  obtain ⟨d', hd', hl⟩ := hi.later ht h hd
  exact ⟨d', hd', hl.view, hl.command, hl.xids, hl.rolled, hl.turn.phase_of_committed,
    Turn.failed hl.turn⟩

/-- A visit changes the phase of one transaction, which stays open. -/
theorem evolves_visit {p : Timeline.Phase} (hc : t.clients.lookup x = some c)
    (hst : p.status = c.phase.status) (hcom : c.phase ≠ .committed)
    (hf : Failed c → Failed { c with phase := p }) :
    Evolves t (t.tick (t.setClient x { c with phase := p })) := by
  refine ⟨fun y d hd => ?_, fun z e he => he, fun h hh => ?_⟩
  · rw [show (t.tick (t.setClient x { c with phase := p })).clients.lookup y = _ from
      Timeline.lookup_setClient t x y _]
    split_ifs with hyx
    · subst hyx
      obtain rfl := mem_unique hc hd
      exact ⟨_, rfl, { Moves.refl c with committed := fun h => absurd h hcom, failed := hf }⟩
    · exact ⟨d, hd, .refl d⟩
  · refine hh.setClient hc (fun hopen => ?_) rfl fun _ hy => hy
    rw [hst] at hopen
    exact ⟨hopen, (hh.client x c hc hopen).2⟩

theorem Held.mono (h : Held t st) (he : Evolves t t') : Held t' st := by
  obtain ⟨c, hc, hx, hk⟩ := h
  obtain ⟨c', hc', hm⟩ := he.moves _ c hc
  exact ⟨c', hc', hm.xids _ hx, hk.trans hm.command⟩

theorem Gone.mono (h : Gone t st) (he : Evolves t t') : Gone t' st := by
  obtain ⟨c, hc, hg⟩ := h
  obtain ⟨c', hc', hm⟩ := he.moves _ c hc
  exact ⟨c', hc', hg.imp (hm.rolled _) hm.failed⟩

theorem Follows.mono (h : Follows t a b) (he : Evolves t t') : Follows t' a b := by
  cases h with
  | own ho hk => exact .own ho hk
  | seen c d e hc hd hp hown hend hlt =>
    obtain ⟨c', hc', hm⟩ := he.moves _ c hc
    obtain ⟨d', hd', hm'⟩ := he.moves _ d hd
    exact .seen c' d' e hc' hd' (hm'.committed hp).1 ((hm'.committed hp).2 _ hown)
      (he.ended _ e hend) (hlt.trans_le hm.view)

/-- A live write stays live, or its visit is still to come. -/
theorem Turn.holds (h : Turn c c') (hz : z ∈ txnXids c.handle) (hh : Holds c z v) :
    Holds c' z v := by
  unfold Holds at hh ⊢
  cases h with
  | stay hp hown =>
    rw [hp]
    split at hh
    · exact hown z hh
    · exact hown z hh
    · exact hh.imp_left (hown z)
    · exact hh
    · exact hh
  | undo dead hp hp' hown =>
    rw [hp] at hh
    rw [hp']
    exact (hown z hh).imp_right Timeline.mem_visits.2
  | commit hp hp' hh' =>
    rw [hp] at hh
    rw [hp', hh']
    exact hh
  | rollback hp hp' =>
    rw [hp']
    exact Timeline.mem_visits.2 (List.mem_reverse.2 (Timeline.mem_abortWriteXidFamily.2 hz))
  | abort hp =>
    rw [hp] at hh
    cases hh

theorem alive_step (hi : Timeline.Inv t) {act : Timeline.Act}
    (ht : Timeline.Timely t act = true) (h : Timeline.step t act = some t') (hst : Held t w.stamp)
    (hw : Alive t w) : Alive t' w := by
  obtain ⟨c, hc, hh⟩ := hw
  obtain ⟨c₀, hc₀, hx, -⟩ := hst
  obtain rfl := mem_unique hc hc₀
  obtain ⟨c', hc', hl⟩ := hi.later ht h hc
  exact ⟨c', hc', Turn.holds hl.turn hx hh⟩

end UltraSql.Heap
