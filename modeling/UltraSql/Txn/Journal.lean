import UltraSql.Lib.Threads
import UltraSql.Txn.Manager

/-!
# Savepoints refine a write journal

The reference model of a transaction keeps a journal of its writes and a stack of named marks:
SAVEPOINT pushes a mark at the end of the journal, RELEASE removes the innermost mark of a name,
ROLLBACK TO cuts the journal at the innermost mark of a name and keeps that mark.

The source keeps no journal. A write is stamped with the XID of the innermost open savepoint, and
what survives is decided by comparing XIDs against the cutoff of a rollback. The two agree because
the XID of an open savepoint separates the journal: entries before its mark carry smaller stamps,
entries from its mark on carry its own or larger ones (`Mark`).

**Theorem (`savepoints_refine_journal`).** In every interleaving of the operations of any number
of transactions: a write of an open transaction is in its reference journal exactly when its stamp
is the transaction's XID or one of `self_subxids`; rolled-back and own subtransactions are
disjoint; the XIDs on the stack increase; RELEASE and ROLLBACK TO fail in the code exactly when
they fail in the reference; an open transaction can end; after a commit exactly the surviving
writes carry committed stamps, and after an abort none does.
-/

namespace UltraSql.Savepoints

open List TransactionManager SubtxnManager

/-! ## The reference model -/

/-- The writes that count, in order, and the open marks with their positions, innermost first. -/
structure Journal where
  entries : List ℕ := []
  marks : List (String × ℕ) := []
  deriving DecidableEq, Repr

namespace Journal

def write (j : Journal) (id : ℕ) : Journal := { j with entries := j.entries ++ [id] }

def savepoint (j : Journal) (name : String) : Journal :=
  { j with marks := (name, j.entries.length) :: j.marks }

/-- Remove the innermost mark of that name. -/
def release (j : Journal) (name : String) : Option Journal :=
  match j.marks.dropWhile (·.1 != name) with
  | [] => none
  | _ :: outer => some { j with marks := j.marks.takeWhile (·.1 != name) ++ outer }

/-- Cut the journal at the innermost mark of that name, which stays. -/
def rollbackTo (j : Journal) (name : String) : Option Journal :=
  match j.marks.dropWhile (·.1 != name) with
  | [] => none
  | mark :: outer => some { entries := j.entries.take mark.2, marks := mark :: outer }

end Journal

/-! ## Sessions: the code beside the reference -/

/-- An open transaction, the stamps of its writes in order, and its reference journal. -/
structure Session where
  txn : Transaction
  stamps : List ℕ := []
  ref : Journal := {}

inductive Local
  | idle
  | running (c : Session)
  | committed (c : Session)
  | aborted (c : Session)

inductive Op
  | begin (isolation : IsolationLevel)
  | savepoint (name : String)
  | release (name : String)
  | rollbackTo (name : String)
  | write
  | commit
  | abort
  deriving DecidableEq

/-- One operation on both sides. A failed RELEASE or ROLLBACK TO changes nothing on its side. -/
def opStep (m : TransactionManager) (l : Local) : Op → Option (TransactionManager × Local)
  | .begin isolation =>
    match l with
    | .idle => some ((m.begin isolation).1, .running { txn := (m.begin isolation).2 })
    | _ => none
  | .savepoint name =>
    match l with
    | .running c =>
      some ((m.beginSavepoint c.txn name).1,
        .running { c with txn := (m.beginSavepoint c.txn name).2, ref := c.ref.savepoint name })
    | _ => none
  | .release name =>
    match l with
    | .running c =>
      match TransactionManager.releaseSavepoint c.txn name with
      | .ok (_, t) =>
        some (m, .running { c with txn := t, ref := (c.ref.release name).getD c.ref })
      | .error _ => some (m, .running { c with ref := (c.ref.release name).getD c.ref })
    | _ => none
  | .rollbackTo name =>
    match l with
    | .running c =>
      match m.rollbackToSavepoint c.txn name with
      | .ok (m', t, _) =>
        some (m', .running { c with txn := t, ref := (c.ref.rollbackTo name).getD c.ref })
      | .error _ => some (m, .running { c with ref := (c.ref.rollbackTo name).getD c.ref })
    | _ => none
  | .write =>
    match l with
    | .running c =>
      some (m,
        .running
          { c with
            stamps := c.stamps ++ [c.txn.writeXid]
            ref := c.ref.write c.stamps.length })
    | _ => none
  | .commit =>
    match l with
    | .running c =>
      match m.commitFinalizeVisible c.txn c.txn.committedSubxidFamily with
      | .ok m => some (m, .committed c)
      | .error _ => none
    | _ => none
  | .abort =>
    match l with
    | .running c =>
      match m.abort c.txn with
      | .ok m => some (m, .aborted c)
      | .error _ => none
    | _ => none

/-- `n` transactions on a manager without history. -/
def machine (n : ℕ) : Machine (Program.State TransactionManager Local n) (Fin n × Op) :=
  Program.machine { step := opStep } n {} .idle

/-- The stamp of a write. -/
def Session.stamp (c : Session) (id : ℕ) : ℕ := c.stamps.getD id 0

/-! ## The invariant -/

/-- The XIDs that belong to a transaction. -/
def txnXids (t : Transaction) : List ℕ :=
  t.xid :: (t.subtxnStack.liveStackSubxids ++ t.subtxnStack.mergedUp ++ t.subtxnStack.rolledBack)

/-- An open savepoint and its mark: the savepoint's XID separates the journal at the mark. -/
structure Mark (c : Session) (e : Subtxn) (k : String × ℕ) : Prop where
  name : e.name = k.1
  within : k.2 ≤ c.ref.entries.length
  before : ∀ id ∈ c.ref.entries.take k.2, c.stamp id < e.xid
  after : ∀ id ∈ c.ref.entries.drop k.2, e.xid ≤ c.stamp id

/-- `x` is the transaction's own XID or that of an open or released savepoint. -/
def Own (t : Transaction) (x : ℕ) : Prop :=
  x = t.xid ∨ x ∈ t.subtxnStack.liveStackSubxids ∨ x ∈ t.subtxnStack.mergedUp

structure SessionInv (m : TransactionManager) (c : Session) : Prop where
  marks : List.Forall₂ (Mark c) c.txn.subtxnStack.stack c.ref.marks
  nested : c.ref.marks.Pairwise fun a b => b.2 ≤ a.2
  increasing : c.txn.subtxnStack.stack.Pairwise fun a b => b.xid < a.xid
  ids : ∀ id ∈ c.ref.entries, id < c.stamps.length
  stamped : ∀ x ∈ c.stamps, x ∈ txnXids c.txn
  surviving : ∀ id < c.stamps.length, id ∈ c.ref.entries ↔ Own c.txn (c.stamp id)
  range : ∀ x ∈ txnXids c.txn, x < m.nextXid
  above : ∀ e ∈ c.txn.subtxnStack.stack, c.txn.xid < e.xid
  disjoint : ∀ x ∈ c.txn.subtxnStack.rolledBack, ¬ Own c.txn x
  running : ∀ x, Own c.txn x → m.clog.lookup x = some .inProgress
  rolled : ∀ x ∈ c.txn.subtxnStack.rolledBack, m.clog.lookup x = some .aborted

/-- What the commit log says of the writes of a transaction that has ended. -/
structure EndedInv (m : TransactionManager) (c : Session) (status : XidStatus) : Prop where
  stamped : ∀ x ∈ c.stamps, x ∈ txnXids c.txn
  range : ∀ x ∈ txnXids c.txn, x < m.nextXid
  surviving : ∀ id < c.stamps.length,
    if id ∈ c.ref.entries then m.clog.lookup (c.stamp id) = some status
    else m.clog.lookup (c.stamp id) = some .aborted

def LocalInv (m : TransactionManager) : Local → Prop
  | .idle => True
  | .running c => SessionInv m c
  | .committed c => EndedInv m c .committed
  | .aborted c => EndedInv m c .aborted

def Local.xids : Local → List ℕ
  | .idle => []
  | .running c | .committed c | .aborted c => txnXids c.txn

def Apart (l k : Local) : Prop := ∀ x ∈ l.xids, x ∉ k.xids

/-! ## Lists -/

section Forall₂

variable {α β : Type*} {R : α → β → Prop} {p : α → Bool} {q : β → Bool} {l₁ : List α} {l₂ : List β}

theorem forall₂_dropWhile (hpq : ∀ a b, R a b → p a = q b) (h : List.Forall₂ R l₁ l₂) :
    List.Forall₂ R (l₁.dropWhile p) (l₂.dropWhile q) := by
  induction h with
  | nil => exact .nil
  | @cons a b l₁ l₂ hab h ih =>
    rw [dropWhile_cons, dropWhile_cons, hpq a b hab]
    split_ifs
    · exact ih
    · exact .cons hab h

theorem forall₂_takeWhile (hpq : ∀ a b, R a b → p a = q b) (h : List.Forall₂ R l₁ l₂) :
    List.Forall₂ R (l₁.takeWhile p) (l₂.takeWhile q) := by
  induction h with
  | nil => exact .nil
  | @cons a b l₁ l₂ hab h ih =>
    rw [takeWhile_cons, takeWhile_cons, hpq a b hab]
    split_ifs
    · exact .cons hab ih
    · exact .nil

theorem exists_left_of_mem (h : List.Forall₂ R l₁ l₂) {b : β} (hb : b ∈ l₂) :
    ∃ a ∈ l₁, R a b := by
  induction h with
  | nil => cases hb
  | cons hab h ih =>
    rcases mem_cons.1 hb with rfl | hb
    · exact ⟨_, mem_cons_self, hab⟩
    · obtain ⟨a, ha, hr⟩ := ih hb
      exact ⟨a, mem_cons_of_mem _ ha, hr⟩

end Forall₂

section Split

variable {inner outer : List Subtxn} {target : Subtxn} {name : String}
  (hin : ∀ e ∈ inner, e.name ≠ name) (ht : target.name = name)

include hin ht

theorem dropWhile_split :
    (inner ++ target :: outer).dropWhile (·.name != name) = target :: outer := by
  rw [dropWhile_append_of_pos (by simpa using hin), dropWhile_cons_of_neg (by simp [ht])]

theorem takeWhile_split :
    (inner ++ target :: outer).takeWhile (·.name != name) = inner := by
  rw [takeWhile_append_of_pos (by simpa using hin), takeWhile_cons_of_neg (by simp [ht]),
    append_nil]

end Split

variable {t : Transaction}

theorem mem_txnXids {x : ℕ} : x ∈ txnXids t ↔ Own t x ∨ x ∈ t.subtxnStack.rolledBack := by
  simp only [txnXids, Own, mem_cons, mem_append]
  tauto

theorem Own.mem {x : ℕ} (h : Own t x) : x ∈ txnXids t := mem_txnXids.2 (.inl h)

/-! ## One operation -/

section Operations

variable {m m' : TransactionManager} {c : Session} {name : String}

variable {k : String × ℕ}

theorem Mark.name_beq {e : Subtxn} (h : Mark c e k) :
    (e.name != name) = (k.1 != name) := by rw [h.name]

theorem sessionInv_begin (isolation : IsolationLevel) :
    SessionInv (m.begin isolation).1 { txn := (m.begin isolation).2 } := by
  have hown : ∀ x, Own (m.begin isolation).2 x ↔ x = m.nextXid := fun x => by
    simp [Own, begin, beginAt, new, liveStackSubxids]
  have hrb : (m.begin isolation).2.subtxnStack.rolledBack = [] := rfl
  refine ⟨.nil, .nil, .nil, by simp, by simp, by simp, fun x hx => ?_, forall_mem_nil _,
    forall_mem_nil _, fun x hx => ?_, forall_mem_nil _⟩
  · rw [mem_txnXids, hown, hrb] at hx
    rcases hx with rfl | hx
    · exact Nat.lt_succ_self _
    · cases hx
  · exact (lookup_allocPublished x).trans (if_pos ((hown x).1 hx))

variable {t t' : Transaction}

theorem own_savepoint {sub : ℕ} (x : ℕ) :
    Own (m.beginSavepointAt t sub name).2 x ↔ x = sub ∨ Own t x := by
  simp only [Own, beginSavepointAt, Transaction.applyOwnSubxids,
    SubtxnManager.savepoint, liveStackSubxids, entry, map_cons,
    mem_cons]
  tauto

theorem mem_txnXids_savepoint {x sub : ℕ} :
    x ∈ txnXids (m.beginSavepointAt t sub name).2 ↔ x = sub ∨ x ∈ txnXids t := by
  rw [mem_txnXids, mem_txnXids, own_savepoint]
  exact or_assoc

theorem stamp_eq_getElem {id : ℕ} (hid : id < c.stamps.length) :
    c.stamp id = c.stamps[id] := by
  simp [Session.stamp, getD, hid]

theorem stamp_mem {id : ℕ} (hid : id < c.stamps.length) : c.stamp id ∈ c.stamps := by
  rw [stamp_eq_getElem hid]
  exact getElem_mem hid

theorem own_writeXid : Own t t.writeXid := by
  unfold Own Transaction.writeXid liveStackSubxids
  cases t.subtxnStack.stack with
  | nil => exact .inl rfl
  | cons e stack => exact .inr (.inl mem_cons_self)

theorem releaseSavepoint_ok {sub : ℕ}
    (h : TransactionManager.releaseSavepoint t name = .ok (sub, t')) :
    ∃ inner target outer, t.subtxnStack.stack = inner ++ target :: outer ∧ target.name = name ∧
      (∀ e ∈ inner, e.name ≠ name) ∧ t'.xid = t.xid ∧ t'.subtxnStack.stack = inner ++ outer ∧
      t'.subtxnStack.rolledBack = t.subtxnStack.rolledBack ∧
      t'.subtxnStack.mergedUp = t.subtxnStack.mergedUp.insert target.xid := by
  unfold releaseSavepoint at h
  split at h
  · cases h
  · rename_i sub' stack hrel
    cases h
    obtain ⟨inner, target, outer, hs, hn, hin, -, -, hst, hrb, hmer⟩ :=
      release_ok hrel
    exact ⟨inner, target, outer, hs, hn, hin, rfl, hst, hrb, hmer⟩

/-- The released XID moves from the stack to the released set, so the own XIDs are the same. -/
theorem own_release {sub : ℕ} (hrel : TransactionManager.releaseSavepoint t name = .ok (sub, t'))
    (x : ℕ) : Own t' x ↔ Own t x := by
  obtain ⟨inner, target, outer, hs, -, -, hxid, hst, -, hmer⟩ := releaseSavepoint_ok hrel
  simp only [Own, liveStackSubxids, hxid, hst, hs, hmer, map_append,
    map_cons, mem_append, mem_cons, mem_insert_iff]
  tauto

theorem mem_txnXids_release {sub x : ℕ}
    (hrel : TransactionManager.releaseSavepoint t name = .ok (sub, t')) :
    x ∈ txnXids t' ↔ x ∈ txnXids t := by
  obtain ⟨-, -, -, -, -, -, -, -, hrb, -⟩ := releaseSavepoint_ok hrel
  rw [mem_txnXids, mem_txnXids, own_release hrel, hrb]

/-- Cutting the journal at a mark keeps what an outer savepoint says of it. -/
theorem Mark.take {c' : Session} {e : Subtxn} {p : ℕ} (hk : Mark c e k) (hle : k.2 ≤ p)
    (hp : p ≤ c.ref.entries.length) (hs : c'.stamps = c.stamps)
    (he : c'.ref.entries = c.ref.entries.take p) : Mark c' e k := by
  have hst : ∀ id, c'.stamp id = c.stamp id := fun id => by rw [Session.stamp, hs, Session.stamp]
  refine ⟨hk.name, ?_, fun id hid => ?_, fun id hid => ?_⟩
  · rw [he, length_take]
    omega
  · rw [he, take_take, min_eq_left hle] at hid
    rw [hst]
    exact hk.before id hid
  · rw [he, drop_take] at hid
    rw [hst]
    exact hk.after id (mem_of_mem_take hid)

/-- What a successful ROLLBACK TO does, told by its cutoff: of the transaction's own XIDs those
below the cutoff stay, and those from the cutoff on are rolled back. -/
structure CutOff (m m' : TransactionManager) (t t' : Transaction) (sub : ℕ) (name : String)
    (target : Subtxn) (outer : List Subtxn) : Prop where
  found : t.subtxnStack.stack.dropWhile (·.name != name) = target :: outer
  xid : t'.xid = t.xid
  stack : t'.subtxnStack.stack = { target with xid := sub } :: outer
  own : ∀ x, Own t' x ↔ x = sub ∨ Own t x ∧ x < target.xid
  rolled : ∀ x, x ∈ t'.subtxnStack.rolledBack ↔
    x ∈ t.subtxnStack.rolledBack ∨ Own t x ∧ target.xid ≤ x
  nextXid : m'.nextXid = m.nextXid
  clog : ∀ y, m'.clog.lookup y =
    if y ∈ t'.subtxnStack.rolledBack ∧ m.clog.lookup y = some .inProgress then some .aborted
    else m.clog.lookup y

theorem cutOff_of_rollbackTo {ab : List ℕ} {sub : ℕ}
    (hinc : t.subtxnStack.stack.Pairwise fun a b => b.xid < a.xid)
    (habove : ∀ e ∈ t.subtxnStack.stack, t.xid < e.xid)
    (hroll : m.rollbackToSavepointAt t sub name = .ok (m', t', ab)) :
    ∃ target outer, CutOff m m' t t' sub name target outer := by
  obtain ⟨inner, target, outer, hs, hn, hin, hxid, hst, hmer, hrb, hnext, hclog⟩ :=
    rollbackToSavepointAt_ok hroll
  rw [hs, pairwise_append, pairwise_cons] at hinc
  obtain ⟨-, ⟨houter, -⟩, hinner⟩ := hinc
  have hlive : ∀ x, x ∈ t.subtxnStack.liveStackSubxids ↔
      x ∈ inner.map (·.xid) ∨ x = target.xid ∨ x ∈ outer.map (·.xid) := fun x => by
    simp [liveStackSubxids, hs]
  -- Everything opened inside the target lies above its XID, everything around it below.
  have hi : ∀ x, x ∈ inner.map (·.xid) → target.xid < x := fun x hx => by
    obtain ⟨e, he, rfl⟩ := mem_map.1 hx
    exact hinner e he target mem_cons_self
  have ho : ∀ x, x ∈ outer.map (·.xid) → x < target.xid := fun x hx => by
    obtain ⟨e, he, rfl⟩ := mem_map.1 hx
    exact houter e he
  refine ⟨target, outer, by rw [hs, dropWhile_split hin hn], hxid, hst, fun x => ?_, fun x => ?_,
    hnext, hclog⟩
  · have hi := hi x
    have ho := ho x
    simp only [Own, hlive]
    simp only [liveStackSubxids, hxid, hst, hmer, map_cons, mem_cons,
      mem_filter, decide_eq_true_eq]
    grind
  · have hi := hi x
    have ho := ho x
    rw [hrb]
    simp only [Own, hlive]
    grind

theorem CutOff.mem_txnXids_iff {target : Subtxn} {outer : List Subtxn} {sub : ℕ}
    (hcut : CutOff m m' t t' sub name target outer) (x : ℕ) :
    x ∈ txnXids t' ↔ x = sub ∨ x ∈ txnXids t := by
  rw [mem_txnXids, mem_txnXids, hcut.own, hcut.rolled]
  have : x < target.xid ∨ target.xid ≤ x := lt_or_ge _ _
  tauto

variable {status : XidStatus}

section

variable (h : SessionInv m c)
include h

/-- The innermost savepoint of a name and the innermost mark of that name correspond. -/
theorem target_mark {target : Subtxn} {outer : List Subtxn}
    (hd : c.txn.subtxnStack.stack.dropWhile (·.name != name) = target :: outer) :
    ∃ mark marks, c.ref.marks.dropWhile (·.1 != name) = mark :: marks ∧ Mark c target mark ∧
      List.Forall₂ (Mark c) outer marks := by
  have hall := forall₂_dropWhile (p := (·.name != name)) (q := (·.1 != name))
    (fun _ _ hab => hab.name_beq) h.marks
  rw [hd, forall₂_cons_left_iff] at hall
  obtain ⟨mark, marks, hmark, hmarks, he⟩ := hall
  exact ⟨mark, marks, he, hmark, hmarks⟩

theorem no_target_mark (hd : c.txn.subtxnStack.stack.dropWhile (·.name != name) = []) :
    c.ref.marks.dropWhile (·.1 != name) = [] := by
  have hall := forall₂_dropWhile (p := (·.name != name)) (q := (·.1 != name))
    (fun _ _ hab => hab.name_beq) h.marks
  rw [hd] at hall
  exact forall₂_nil_left_iff.1 hall

theorem stamp_lt {id : ℕ} (hid : id < c.stamps.length) : c.stamp id < m.nextXid :=
  h.range _ (h.stamped _ (stamp_mem hid))

theorem live_lt {e : Subtxn} (he : e ∈ c.txn.subtxnStack.stack) : e.xid < m.nextXid :=
  h.range _ (Own.mem (.inr (.inl (mem_map.2 ⟨e, he, rfl⟩))))

theorem sessionInv_savepoint :
    SessionInv (m.beginSavepoint c.txn name).1
      { c with txn := (m.beginSavepoint c.txn name).2, ref := c.ref.savepoint name } := by
  unfold beginSavepoint
  constructor
  · refine .cons ⟨rfl, le_rfl, fun id hid => ?_, fun id hid => ?_⟩
      (h.marks.imp fun e k hk => { hk with })
    · exact stamp_lt h (h.ids id (mem_of_mem_take hid))
    · simp [Journal.savepoint] at hid
  · refine pairwise_cons.2 ⟨fun k hk => ?_, h.nested⟩
    obtain ⟨e, -, hm⟩ := exists_left_of_mem h.marks hk
    exact hm.within
  · exact pairwise_cons.2 ⟨fun e he => live_lt h he, h.increasing⟩
  · exact h.ids
  · exact fun x hx => (mem_txnXids_savepoint (m := m)).2 (.inr (h.stamped x hx))
  · intro id hid
    rw [own_savepoint]
    have hne : c.stamp id ≠ m.nextXid := (stamp_lt h hid).ne
    exact (h.surviving id hid).trans ⟨.inr, fun ho => ho.resolve_left hne⟩
  · intro x hx
    rcases (mem_txnXids_savepoint (m := m)).1 hx with rfl | hx
    · exact Nat.lt_succ_self _
    · exact Nat.lt_succ_of_lt (h.range x hx)
  · exact forall_mem_cons.2 ⟨h.range _ (Own.mem (.inl rfl)), h.above⟩
  · intro x hx ho
    rcases (own_savepoint (m := m) x).1 ho with rfl | ho
    · exact lt_irrefl _ (h.range _ (mem_txnXids.2 (.inr hx)))
    · exact h.disjoint x hx ho
  · intro x ho
    refine (lookup_allocPublished x).trans ?_
    split_ifs with hx
    · rfl
    · exact h.running x (((own_savepoint (m := m) x).1 ho).resolve_left hx)
  · intro x hx
    refine (lookup_allocPublished x).trans ?_
    rw [if_neg (h.range _ (mem_txnXids.2 (.inr hx))).ne]
    exact h.rolled x hx

/-- A write carries the largest XID of the stack. -/
theorem le_writeXid {e : Subtxn} (he : e ∈ c.txn.subtxnStack.stack) : e.xid ≤ c.txn.writeXid := by
  have hinc := h.increasing
  unfold Transaction.writeXid
  cases hs : c.txn.subtxnStack.stack with
  | nil =>
    rw [hs] at he
    cases he
  | cons e' stack =>
    rw [hs] at he hinc
    rcases mem_cons.1 he with rfl | he
    · exact le_rfl
    · exact (rel_of_pairwise_cons hinc he).le

theorem sessionInv_write :
    SessionInv m
      { c with stamps := c.stamps ++ [c.txn.writeXid], ref := c.ref.write c.stamps.length } := by
  set c' : Session :=
    { c with stamps := c.stamps ++ [c.txn.writeXid], ref := c.ref.write c.stamps.length } with hc'
  have hold : ∀ id, id < c.stamps.length → c'.stamp id = c.stamp id := fun id hid => by
    rw [stamp_eq_getElem hid, stamp_eq_getElem (by simp [hc']; omega)]
    exact getElem_append_left hid
  have hnew : c'.stamp c.stamps.length = c.txn.writeXid := by
    rw [stamp_eq_getElem (by simp [hc'])]
    simp [hc']
  refine { h with
    marks := ?_, ids := fun id hid => ?_, stamped := fun x hx => ?_, surviving := fun id hid => ?_ }
  · have hall := (forall₂_and_left _ _).2 ⟨fun e he => le_writeXid h he, h.marks⟩
    refine hall.imp fun e k ⟨hle, hk⟩ => ⟨hk.name, ?_, fun id hid => ?_, fun id hid => ?_⟩
    · exact hk.within.trans (by simp [hc', Journal.write])
    · have hid' : id ∈ c.ref.entries.take k.2 := by
        simpa [hc', Journal.write, take_append_of_le_length hk.within] using hid
      rw [hold id (h.ids id (mem_of_mem_take hid'))]
      exact hk.before id hid'
    · have hid' : id ∈ c.ref.entries.drop k.2 ∨ id = c.stamps.length := by
        simpa [hc', Journal.write, drop_append_of_le_length hk.within] using hid
      rcases hid' with hid' | rfl
      · rw [hold id (h.ids id (mem_of_mem_drop hid'))]
        exact hk.after id hid'
      · rw [hnew]
        exact hle
  · simp only [hc', Journal.write, mem_append, mem_singleton, length_append,
      length_singleton] at hid ⊢
    rcases hid with hid | rfl
    · exact Nat.lt_succ_of_lt (h.ids id hid)
    · exact Nat.lt_succ_self _
  · rcases mem_append.1 hx with hx | hx
    · exact h.stamped x hx
    · rw [mem_singleton] at hx
      exact hx ▸ own_writeXid.mem
  · have hmem : id ∈ c'.ref.entries ↔ id ∈ c.ref.entries ∨ id = c.stamps.length := by
      simp [hc', Journal.write]
    rw [hmem]
    rcases Nat.lt_or_eq_of_le (Nat.le_of_lt_succ (by simpa [hc'] using hid)) with hlt | rfl
    · rw [hold id hlt]
      exact ⟨fun hm => (h.surviving id hlt).1 (hm.resolve_right hlt.ne),
        fun ho => .inl ((h.surviving id hlt).2 ho)⟩
    · rw [hnew]
      exact ⟨fun _ => own_writeXid, fun _ => .inr rfl⟩

theorem sessionInv_release {sub : ℕ}
    (hrel : TransactionManager.releaseSavepoint c.txn name = .ok (sub, t')) :
    SessionInv m { c with txn := t', ref := (c.ref.release name).getD c.ref } := by
  obtain ⟨inner, target, outer, hs, hn, hin, hxid, hst, hrb, -⟩ := releaseSavepoint_ok hrel
  have hd : c.txn.subtxnStack.stack.dropWhile (·.name != name) = target :: outer := by
    rw [hs, dropWhile_split hin hn]
  obtain ⟨mark, marks, hmd, hmark, hmarks⟩ := target_mark h hd
  have hinner := forall₂_takeWhile (p := (·.name != name)) (q := (·.1 != name))
    (fun _ _ hab => hab.name_beq) h.marks
  rw [hs, takeWhile_split hin hn] at hinner
  have href : (c.ref.release name).getD c.ref =
      { c.ref with marks := c.ref.marks.takeWhile (·.1 != name) ++ marks } := by
    simp [Journal.release, hmd]
  have hsub : (c.ref.marks.takeWhile (·.1 != name) ++ marks).Sublist c.ref.marks := by
    conv_rhs => rw [← takeWhile_append_dropWhile (p := (·.1 != name)) (l := c.ref.marks), hmd]
    exact (List.Sublist.refl _).append (sublist_cons_self _ _)
  have hstsub : t'.subtxnStack.stack.Sublist c.txn.subtxnStack.stack := by
    rw [hst, hs]
    exact (List.Sublist.refl _).append (sublist_cons_self _ _)
  have hown := own_release hrel
  rw [href]
  exact { h with
    marks := by
      rw [hst]
      have hall := rel_append hinner hmarks
      exact hall.imp fun e k hk => { hk with }
    nested := h.nested.sublist hsub
    increasing := h.increasing.sublist hstsub
    stamped := fun x hx => (mem_txnXids_release hrel).2 (h.stamped x hx)
    surviving := fun id hid => (h.surviving id hid).trans (hown _).symm
    range := fun x hx => h.range x ((mem_txnXids_release hrel).1 hx)
    above := fun e he => hxid ▸ h.above e (hstsub.subset he)
    disjoint := fun x hx ho => h.disjoint x (hrb ▸ hx) ((hown x).1 ho)
    running := fun x ho => h.running x ((hown x).1 ho)
    rolled := fun x hx => h.rolled x (hrb ▸ hx) }

/-- A failed RELEASE or ROLLBACK TO fails on both sides. -/
theorem sessionInv_failed (hd : c.txn.subtxnStack.stack.dropWhile (·.name != name) = []) :
    (c.ref.release name).getD c.ref = c.ref ∧ (c.ref.rollbackTo name).getD c.ref = c.ref := by
  have hmd := no_target_mark h hd
  constructor
  · simp [Journal.release, hmd]
  · simp [Journal.rollbackTo, hmd]

/-- The entries that stay in the journal are those stamped below the cutoff. -/
theorem mem_take_iff {e : Subtxn} (hk : Mark c e k) {id : ℕ} (hid : id < c.stamps.length) :
    id ∈ c.ref.entries.take k.2 ↔ Own c.txn (c.stamp id) ∧ c.stamp id < e.xid := by
  rw [← h.surviving id hid]
  constructor
  · exact fun hmem => ⟨mem_of_mem_take hmem, hk.before id hmem⟩
  · rintro ⟨hmem, hlt⟩
    rw [← take_append_drop k.2 c.ref.entries, mem_append] at hmem
    exact hmem.resolve_right fun hd => (hk.after id hd).not_gt hlt

theorem sessionInv_rollbackTo {ab : List ℕ}
    (hroll : m.rollbackToSavepoint c.txn name = .ok (m', t', ab)) :
    SessionInv m' { c with txn := t', ref := (c.ref.rollbackTo name).getD c.ref } := by
  obtain ⟨target, outer, hcut⟩ := cutOff_of_rollbackTo h.increasing h.above hroll
  obtain ⟨mark, marks, hmd, hmark, hmarks⟩ := target_mark h hcut.found
  have href : (c.ref.rollbackTo name).getD c.ref =
      { entries := c.ref.entries.take mark.2, marks := mark :: marks } := by
    simp [Journal.rollbackTo, hmd]
  have hnested : (mark :: marks).Pairwise fun a b => b.2 ≤ a.2 :=
    h.nested.sublist (hmd ▸ dropWhile_sublist _)
  have hstack : (target :: outer).Sublist c.txn.subtxnStack.stack :=
    hcut.found ▸ dropWhile_sublist _
  have hinc := h.increasing.sublist hstack
  have hnew : ∀ x ∈ txnXids c.txn, x ≠ m.nextXid := fun x hx => (h.range x hx).ne
  have hdisj : ∀ x ∈ t'.subtxnStack.rolledBack, ¬ Own t' x := by
    intro x hx ho
    rcases (hcut.own x).1 ho with rfl | ⟨ho, hlt⟩
    · rcases (hcut.rolled _).1 hx with hx | ⟨hx, -⟩
      · exact hnew _ (mem_txnXids.2 (.inr hx)) rfl
      · exact hnew _ hx.mem rfl
    · rcases (hcut.rolled x).1 hx with hx | ⟨-, hge⟩
      · exact h.disjoint x hx ho
      · exact hge.not_gt hlt
  rw [href]
  constructor
  · rw [hcut.stack]
    refine .cons ⟨hmark.name, ?_, fun id hid => ?_, fun id hid => ?_⟩ ?_
    · simp [hmark.within]
    · exact stamp_lt h (h.ids id (mem_of_mem_take (mem_of_mem_take hid)))
    · simp at hid
    · have hall := (forall₂_and_left _ _).2
        ⟨fun k hk => rel_of_pairwise_cons hnested hk, hmarks.flip⟩
      exact (hall.imp fun k e hk => hk.2.take hk.1 hmark.within rfl rfl).flip
  · exact hnested
  · rw [hcut.stack]
    exact pairwise_cons.2
      ⟨fun e he => live_lt h (hstack.subset (mem_cons_of_mem _ he)), (pairwise_cons.1 hinc).2⟩
  · exact fun id hid => h.ids id (mem_of_mem_take hid)
  · exact fun x hx => (hcut.mem_txnXids_iff x).2 (.inr (h.stamped x hx))
  · intro id hid
    have hne : c.stamp id ≠ m.nextXid := (stamp_lt h hid).ne
    exact (mem_take_iff h hmark hid).trans
      ⟨fun ho => (hcut.own _).2 (.inr ho), fun ho => ((hcut.own _).1 ho).resolve_left hne⟩
  · intro x hx
    rw [hcut.nextXid]
    rcases (hcut.mem_txnXids_iff x).1 hx with rfl | hx
    · exact Nat.lt_succ_self _
    · exact Nat.lt_succ_of_lt (h.range x hx)
  · rw [hcut.stack, hcut.xid]
    exact forall_mem_cons.2 ⟨h.range _ (Own.mem (.inl rfl)),
      fun e he => h.above e (hstack.subset (mem_cons_of_mem _ he))⟩
  · exact hdisj
  · intro x ho
    rw [hcut.clog, if_neg fun hr => hdisj x hr.1 ho, lookup_allocPublished]
    rcases (hcut.own x).1 ho with rfl | ⟨ho, -⟩
    · rw [if_pos rfl]
    · rw [if_neg (hnew x ho.mem)]
      exact h.running x ho
  · intro x hx
    have hne : x ≠ m.nextXid := fun he => hdisj x hx ((hcut.own x).2 (.inl he))
    rw [hcut.clog, lookup_allocPublished]
    simp only [hx, hne, if_false, true_and]
    rcases (hcut.rolled x).1 hx with hx | ⟨ho, -⟩
    · simp [h.rolled x hx]
    · simp [h.running x ho]

section

variable
  (hterm : m.terminateWithSubxids c.txn.xid c.txn.committedSubxidFamily status false = .ok m')
include hterm

/-- Ending a transaction gives its own XIDs the final status and no other XID a new one. -/
theorem lookup_terminate (y : ℕ) :
    (Own c.txn y → m'.clog.lookup y = some status) ∧
      (¬ Own c.txn y → m'.clog.lookup y = m.clog.lookup y) := by
  obtain ⟨-, hclog, -⟩ := terminate_ok hterm
  rw [hclog]
  constructor
  · intro ho
    have hrun := h.running y ho
    rcases ho with rfl | ho
    · rw [if_pos rfl]
    · rw [if_pos (Transaction.mem_committedSubxidFamily.2 ho.symm), hrun]
      simp [foldStatus]
  · intro ho
    rw [if_neg fun he => ho (.inl he),
      if_neg fun he => ho (.inr (Transaction.mem_committedSubxidFamily.1 he).symm)]

theorem endedInv_terminate : EndedInv m' c status := by
  obtain ⟨-, -, -, hnext, -⟩ := terminate_ok hterm
  refine ⟨h.stamped, fun x hx => hnext ▸ h.range x hx, fun id hid => ?_⟩
  have hlook := lookup_terminate h hterm (c.stamp id)
  split_ifs with hmem
  · exact hlook.1 ((h.surviving id hid).1 hmem)
  · have hno : ¬ Own c.txn (c.stamp id) := fun ho => hmem ((h.surviving id hid).2 ho)
    rw [hlook.2 hno]
    exact h.rolled _ ((mem_txnXids.1 (h.stamped _ (stamp_mem hid))).resolve_left hno)

end

/-- An open transaction can end. -/
theorem terminate_isOk (status : XidStatus) :
    ∃ m', m.terminateWithSubxids c.txn.xid c.txn.committedSubxidFamily status false = .ok m' := by
  unfold terminateWithSubxids
  rw [h.running c.txn.xid (.inl rfl)]
  exact ⟨_, rfl⟩

end

theorem releaseSavepoint_error {e : SavepointError}
    (h : TransactionManager.releaseSavepoint t name = .error e) :
    t.subtxnStack.stack.dropWhile (·.name != name) = [] := by
  unfold releaseSavepoint SubtxnManager.release at h
  cases hd : t.subtxnStack.stack.dropWhile (·.name != name) with
  | nil => rfl
  | cons target outer => simp [hd] at h

theorem rollbackToSavepoint_error {e : SavepointError}
    (h : m.rollbackToSavepoint t name = .error e) :
    t.subtxnStack.stack.dropWhile (·.name != name) = [] := by
  unfold rollbackToSavepoint rollbackToSavepointAt SubtxnManager.rollbackTo at h
  cases hd : t.subtxnStack.stack.dropWhile (·.name != name) with
  | nil => rfl
  | cons target outer => simp [hd] at h

end Operations

/-! ## One operation of one transaction -/

/-- What `opStep` can do. -/
inductive OpStep (m : TransactionManager) : Local → TransactionManager → Local → Prop
  | begin (isolation : IsolationLevel) :
    OpStep m .idle (m.begin isolation).1 (.running { txn := (m.begin isolation).2 })
  | savepoint (c : Session) (name : String) :
    OpStep m (.running c) (m.beginSavepoint c.txn name).1
      (.running { c with txn := (m.beginSavepoint c.txn name).2, ref := c.ref.savepoint name })
  | release {c : Session} {name : String} {sub : ℕ} {t' : Transaction}
    (h : TransactionManager.releaseSavepoint c.txn name = .ok (sub, t')) :
    OpStep m (.running c) m
      (.running { c with txn := t', ref := (c.ref.release name).getD c.ref })
  | releaseFailed {c : Session} {name : String}
    (h : c.txn.subtxnStack.stack.dropWhile (·.name != name) = []) :
    OpStep m (.running c) m (.running { c with ref := (c.ref.release name).getD c.ref })
  | rollbackTo {c : Session} {name : String} {m' : TransactionManager} {t' : Transaction}
    {ab : List ℕ} (h : m.rollbackToSavepoint c.txn name = .ok (m', t', ab)) :
    OpStep m (.running c) m'
      (.running { c with txn := t', ref := (c.ref.rollbackTo name).getD c.ref })
  | rollbackToFailed {c : Session} {name : String}
    (h : c.txn.subtxnStack.stack.dropWhile (·.name != name) = []) :
    OpStep m (.running c) m (.running { c with ref := (c.ref.rollbackTo name).getD c.ref })
  | write (c : Session) :
    OpStep m (.running c) m
      (.running
        { c with stamps := c.stamps ++ [c.txn.writeXid], ref := c.ref.write c.stamps.length })
  | commit {c : Session} {m' : TransactionManager}
    (h : m.terminateWithSubxids c.txn.xid c.txn.committedSubxidFamily .committed false = .ok m') :
    OpStep m (.running c) (m'.forgetSubxidParents c.txn.committedSubxidFamily) (.committed c)
  | abort {c : Session} {m' : TransactionManager}
    (h : m.terminateWithSubxids c.txn.xid c.txn.committedSubxidFamily .aborted false = .ok m') :
    OpStep m (.running c) (m'.forgetSubxidParents c.txn.committedSubxidFamily) (.aborted c)

section Step

variable {m m' : TransactionManager} {l l' k : Local} {op : Op}

theorem opStep_cases (h : opStep m l op = some (m', l')) : OpStep m l m' l' := by
  cases l with
  | idle =>
    cases op with
    | begin isolation =>
      cases h
      exact .begin isolation
    | _ => cases h
  | committed | aborted => cases op <;> cases h
  | running c =>
    cases op with
    | begin => cases h
    | savepoint name =>
      cases h
      exact .savepoint c name
    | release name =>
      simp only [opStep] at h
      split at h
      · rename_i hrel
        cases h
        exact .release hrel
      · rename_i hrel
        cases h
        exact .releaseFailed (releaseSavepoint_error hrel)
    | rollbackTo name =>
      simp only [opStep] at h
      split at h
      · rename_i hroll
        cases h
        exact .rollbackTo hroll
      · rename_i hroll
        cases h
        exact .rollbackToFailed (rollbackToSavepoint_error hroll)
    | write =>
      cases h
      exact .write c
    | commit =>
      simp only [opStep, commitFinalizeVisible] at h
      cases hterm :
        m.terminateWithSubxids c.txn.xid c.txn.committedSubxidFamily .committed false with
      | error e => simp [hterm] at h
      | ok m₁ =>
        rw [hterm] at h
        cases h
        exact .commit hterm
    | abort =>
      simp only [opStep, abort] at h
      cases hterm : m.terminateWithSubxids c.txn.xid c.txn.committedSubxidFamily .aborted false with
      | error e => simp [hterm] at h
      | ok m₁ =>
        rw [hterm] at h
        cases h
        exact .abort hterm

theorem localInv_step (hi : LocalInv m l) (h : OpStep m l m' l') : LocalInv m' l' := by
  cases h with
  | begin isolation => exact sessionInv_begin isolation
  | savepoint c name => exact sessionInv_savepoint hi
  | release hrel => exact sessionInv_release hi hrel
  | @releaseFailed c _ hd =>
    rw [(sessionInv_failed hi hd).1]
    exact hi
  | rollbackTo hroll => exact sessionInv_rollbackTo hi hroll
  | @rollbackToFailed c _ hd =>
    rw [(sessionInv_failed hi hd).2]
    exact hi
  | write c => exact sessionInv_write hi
  | commit hterm | abort hterm =>
    have he := endedInv_terminate hi hterm
    exact { he with }

/-- **Frame.** An operation gives a new status to XIDs of its own transaction only, and the XIDs a
transaction gains are new. -/
structure Frame (m : TransactionManager) (l : Local) (m' : TransactionManager) (l' : Local) :
    Prop where
  nextXid : m.nextXid ≤ m'.nextXid
  clog : ∀ x < m.nextXid, x ∉ l.xids → m'.clog.lookup x = m.clog.lookup x
  fresh : ∀ x ∈ l'.xids, x ∈ l.xids ∨ m.nextXid ≤ x

theorem frame_of_alloc (hnext : m'.nextXid = m.nextXid + 1)
    (hclog : ∀ y, m'.clog.lookup y =
      if y = m.nextXid then some .inProgress else m.clog.lookup y)
    (hxids : ∀ x ∈ l'.xids, x = m.nextXid ∨ x ∈ l.xids) : Frame m l m' l' := by
  refine ⟨by omega, fun x hx _ => ?_, fun x hx => ?_⟩
  · rw [hclog, if_neg hx.ne]
  · rcases hxids x hx with rfl | hx
    · exact .inr le_rfl
    · exact .inl hx

theorem frame_of_terminate {c : Session} {status : XidStatus} (hi : SessionInv m c)
    (hl : l'.xids = txnXids c.txn)
    (hterm : m.terminateWithSubxids c.txn.xid c.txn.committedSubxidFamily status false = .ok m') :
    Frame m (.running c) (m'.forgetSubxidParents c.txn.committedSubxidFamily) l' := by
  obtain ⟨-, -, -, hnext, -⟩ := terminate_ok hterm
  refine ⟨hnext.ge, fun x _ hx => ?_, fun x hx => .inl ?_⟩
  · exact (lookup_terminate hi hterm x).2 fun ho => hx ho.mem
  · rw [hl] at hx
    exact hx

theorem frame_step (hi : LocalInv m l) (h : OpStep m l m' l') : Frame m l m' l' := by
  cases h with
  | begin isolation =>
    refine frame_of_alloc rfl lookup_allocPublished fun x hx => .inl ?_
    simpa [Local.xids, txnXids, begin, beginAt, new,
      liveStackSubxids] using hx
  | savepoint c name =>
    exact frame_of_alloc rfl lookup_allocPublished fun x hx =>
      (mem_txnXids_savepoint (m := m)).1 hx
  | @release c name sub t' hrel =>
    exact ⟨le_rfl, fun _ _ _ => rfl, fun x hx => .inl ((mem_txnXids_release hrel).1 hx)⟩
  | releaseFailed | rollbackToFailed | write => exact ⟨le_rfl, fun _ _ _ => rfl, fun _ => .inl⟩
  | @rollbackTo c name m' t' ab hroll =>
    obtain ⟨target, outer, hcut⟩ := cutOff_of_rollbackTo hi.increasing hi.above hroll
    refine ⟨by rw [hcut.nextXid]; exact Nat.le_succ _, fun x hx hmem => ?_, fun x hx => ?_⟩
    · have hr : x ∉ t'.subtxnStack.rolledBack := fun hr => by
        rcases (hcut.rolled x).1 hr with hr | ⟨ho, -⟩
        · exact hmem (mem_txnXids.2 (.inr hr))
        · exact hmem ho.mem
      rw [hcut.clog, if_neg fun h => hr h.1, lookup_allocPublished, if_neg hx.ne]
    · rcases (hcut.mem_txnXids_iff x).1 hx with rfl | hx
      · exact .inr le_rfl
      · exact .inl hx
  | commit hterm | abort hterm => exact frame_of_terminate hi rfl hterm

theorem range_of_localInv (hi : LocalInv m l) {x : ℕ} (hx : x ∈ l.xids) : x < m.nextXid := by
  cases l with
  | idle => cases hx
  | running | committed | aborted => exact hi.range x hx

/-- The invariant of a transaction reads the commit log at its own XIDs only. -/
theorem localInv_frame (hi : LocalInv m l) (hnext : m.nextXid ≤ m'.nextXid)
    (hclog : ∀ x ∈ l.xids, m'.clog.lookup x = m.clog.lookup x) : LocalInv m' l := by
  have hended : ∀ c status, l.xids = txnXids c.txn → EndedInv m c status →
      EndedInv m' c status := by
    intro c status hl he
    refine ⟨he.stamped, fun x hx => (he.range x hx).trans_le hnext, fun id hid => ?_⟩
    rw [hclog _ (hl ▸ he.stamped _ (stamp_mem hid))]
    exact he.surviving id hid
  cases l with
  | idle => trivial
  | running c =>
    have hi : SessionInv m c := hi
    exact
      { hi with
        range := fun x hx => (hi.range x hx).trans_le hnext
        running := fun x ho => (hclog x ho.mem).trans (hi.running x ho)
        rolled := fun x hx => (hclog x (mem_txnXids.2 (.inr hx))).trans (hi.rolled x hx) }
  | committed c => exact hended c .committed rfl hi
  | aborted c => exact hended c .aborted rfl hi

theorem localInv_other (hk : LocalInv m k) (hd : Apart l k) (hf : Frame m l m' l') :
    LocalInv m' k ∧ Apart l' k := by
  refine ⟨localInv_frame hk hf.nextXid fun x hx => ?_, fun x hx hxk => ?_⟩
  · exact hf.clog x (range_of_localInv hk hx) fun hl => hd x hl hx
  · rcases hf.fresh x hx with hl | hge
    · exact hd x hl hxk
    · exact (range_of_localInv hk hxk).not_ge hge

end Step

/-! ## Whole runs -/

theorem reach_localInv {n : ℕ} {s : Program.State TransactionManager Local n}
    (h : (machine n).Reach Machine.Always s) (i : Fin n) : LocalInv s.shared (s.loc i) := by
  have hinv := Program.reach_inv (G := fun _ => True) (I := LocalInv) (D := Apart)
    (fun l k hd x hx hl => hd x hl hx) trivial (show LocalInv {} .idle from trivial)
    (fun x hx => by cases hx)
    (fun m l op m' l' _ hi hstep => ⟨trivial, localInv_step hi (opStep_cases hstep)⟩)
    (fun m l op m' l' k _ hi hk hd hstep =>
      localInv_other hk hd (frame_step hi (opStep_cases hstep))) h
  exact hinv.loc i

/-- What the code says of an open transaction is what the reference says. -/
structure Refines (m : TransactionManager) (c : Session) : Prop where
  surviving : ∀ id < c.stamps.length,
    id ∈ c.ref.entries ↔
      c.stamp id = c.txn.xid ∨ c.stamp id ∈ c.txn.subtxnStack.selfSubxids
  performed : ∀ id ∈ c.ref.entries, id < c.stamps.length
  disjoint : ∀ x ∈ c.txn.subtxnStack.rolledBack,
    x ≠ c.txn.xid ∧ x ∉ c.txn.subtxnStack.selfSubxids
  increasing : c.txn.subtxnStack.liveStackSubxids.Pairwise (· > ·)
  release : ∀ name, (TransactionManager.releaseSavepoint c.txn name).isOk =
    (c.ref.release name).isSome
  rollbackTo : ∀ name, (m.rollbackToSavepoint c.txn name).isOk = (c.ref.rollbackTo name).isSome
  commit : (m.commitFinalizeVisible c.txn c.txn.committedSubxidFamily).isOk = true
  abort : (m.abort c.txn).isOk = true

variable {m : TransactionManager}

theorem own_iff {c : Session} (h : SessionInv m c) (x : ℕ) :
    Own c.txn x ↔ x = c.txn.xid ∨ x ∈ c.txn.subtxnStack.selfSubxids := by
  have hno : Own c.txn x → x ∉ c.txn.subtxnStack.rolledBack := fun ho hx => h.disjoint x hx ho
  rw [mem_selfSubxids]
  unfold Own at hno ⊢
  tauto

theorem refines_of_sessionInv {c : Session} (h : SessionInv m c) : Refines m c := by
  refine ⟨fun id hid => ?_, h.ids, fun x hx => ?_, ?_, fun name => ?_, fun name => ?_, ?_, ?_⟩
  · exact (h.surviving id hid).trans (own_iff h _)
  · exact not_or.1 fun ho => h.disjoint x hx ((own_iff h x).2 ho)
  · exact pairwise_map.2 h.increasing
  · unfold releaseSavepoint SubtxnManager.release Journal.release
    cases hd : c.txn.subtxnStack.stack.dropWhile (·.name != name) with
    | nil =>
      rw [no_target_mark h hd]
      rfl
    | cons target outer =>
      obtain ⟨mark, marks, hmd, -⟩ := target_mark h hd
      rw [hmd]
      rfl
  · unfold rollbackToSavepoint rollbackToSavepointAt SubtxnManager.rollbackTo Journal.rollbackTo
    cases hd : c.txn.subtxnStack.stack.dropWhile (·.name != name) with
    | nil =>
      rw [no_target_mark h hd]
      rfl
    | cons target outer =>
      obtain ⟨mark, marks, hmd, -⟩ := target_mark h hd
      rw [hmd]
      rfl
  · obtain ⟨m', hterm⟩ := terminate_isOk h .committed
    unfold commitFinalizeVisible
    rw [hterm]
    rfl
  · obtain ⟨m', hterm⟩ := terminate_isOk h .aborted
    unfold abort
    rw [hterm]
    rfl

/-- **Savepoints refine a write journal.** -/
theorem savepoints_refine_journal {n : ℕ} {s : Program.State TransactionManager Local n}
    (h : (machine n).Reach Machine.Always s) (i : Fin n) :
    (∀ c, s.loc i = .running c → Refines s.shared c) ∧
    (∀ c, s.loc i = .committed c → ∀ id < c.stamps.length,
      id ∈ c.ref.entries ↔ s.shared.clog.lookup (c.stamp id) = some .committed) ∧
    ∀ c, s.loc i = .aborted c → ∀ id < c.stamps.length,
      s.shared.clog.lookup (c.stamp id) ≠ some .committed := by
  have hi := reach_localInv h i
  refine ⟨fun c hc => ?_, fun c hc id hid => ?_, fun c hc id hid => ?_⟩ <;> rw [hc] at hi
  · exact refines_of_sessionInv hi
  · have hs := EndedInv.surviving hi id hid
    split_ifs at hs with hmem <;> simp [hmem, hs]
  · have hs := EndedInv.surviving hi id hid
    split_ifs at hs <;> simp [hs]

/-- The stamps and the reference journal of a committed transaction. -/
def Local.outcome : Local → Option (List ℕ × List ℕ)
  | .committed c => some (c.stamps, c.ref.entries)
  | _ => none

/-- Two savepoints of one name, a RELEASE of the inner one and two ROLLBACKs to the outer one,
beside a second transaction that takes XIDs in between. -/
theorem duplicate_names_run :
    ∃ s, (machine 2).Reach Machine.Always s ∧
      (s.loc 0).outcome = some ([3, 5, 6, 7, 8], [0, 4]) ∧
      ∀ c, s.loc 0 = .committed c → ∀ id < c.stamps.length,
        id ∈ c.ref.entries ↔ s.shared.clog.lookup (c.stamp id) = some .committed := by
  obtain ⟨s, hs, hp⟩ := Machine.exists_reach_of_runIf (M := machine 2) (C := Machine.Always)
    (p := fun s => (s.loc 0).outcome = some ([3, 5, 6, 7, 8], [0, 4]))
    [(0, .begin .readCommitted), (0, .write), (1, .begin .readCommitted), (0, .savepoint "a"),
      (0, .write), (0, .savepoint "a"), (0, .write), (0, .release "a"), (0, .rollbackTo "a"),
      (0, .write), (0, .rollbackTo "a"), (0, .rollbackTo "b"), (0, .write), (0, .commit)]
    (by decide)
  exact ⟨s, hs, hp, (savepoints_refine_journal hs 0).2.1⟩

end UltraSql.Savepoints
