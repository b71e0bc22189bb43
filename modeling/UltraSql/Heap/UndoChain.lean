import UltraSql.Heap.History

/-!
# The undo records of a slot as a chain

The live updates of a slot, newest first, form a chain: each one starts from the bytes that the
next older one has left. Undo records reverse it link by link.

**Theorem (`undoLoop_chain`).** A reader whose unseen writers are the newest ones gets the bytes
that the newest writer it sees has left.

**Theorem (`foldl_restore_chain`).** The same holds for the rollback of an XID whose updates are
the newest ones.
-/

namespace UltraSql.Heap

open List

/-! ## One link -/

namespace Payload

variable {p q : Payload} {col : Column} {d : Int32}

@[simp] theorem get_set (n : Int32) : (p.set col n).get col = n := by cases col <;> rfl

@[simp] theorem set_set (n m : Int32) : (p.set col n).set col m = p.set col m := by
  cases col <;> rfl

@[simp] theorem set_get : p.set col (p.get col) = p := by cases col <;> rfl

theorem checked_eq_some {n : ℤ} {i : Int32} (h : checked n = some i) :
    i = Int32.ofInt n ∧ i.toInt = n := by
  unfold checked at h
  split_ifs at h with hr
  cases h
  exact ⟨rfl, Int32.toInt_ofInt_of_le hr.1 hr.2⟩

theorem checked_toInt (i : Int32) : checked i.toInt = some i := by
  rw [checked, if_pos ⟨i.le_toInt, i.toInt_lt⟩, Int32.ofInt_toInt]

/-- The reader's checked subtraction undoes a checked addition. -/
theorem reverseDelta_of_checkedAdd (h : p.checkedAdd col d = some q) :
    q.reverseDelta col d = some p := by
  obtain ⟨i, hi, rfl⟩ := Option.map_eq_some_iff.1 h
  rw [reverseDelta, get_set, (checked_eq_some hi).2, Int.add_sub_cancel, checked_toInt]
  simp

end Payload

/-- A record with this inverse takes `new` back to `old`. -/
def Inverse.Reverses (old new : Payload) : Inverse → Prop
  | .full o => o = old
  | .delta col d => old.checkedAdd col d = some new

variable {old new : Payload} {inverse : Inverse}

/-- The rollback's wrapping subtraction undoes a checked addition. -/
theorem Inverse.Reverses.restore (h : inverse.Reverses old new) :
    Row.restore new inverse = old := by
  cases inverse with
  | full o => exact h
  | delta col d =>
    obtain ⟨i, hi, rfl⟩ := Option.map_eq_some_iff.1 h
    have hadd : i = old.get col + d := by
      rw [(Payload.checked_eq_some hi).1, Int32.ofInt_add, Int32.ofInt_toInt, Int32.ofInt_toInt]
    rw [Row.restore, Payload.get_set, Payload.set_set, hadd, Int32.add_sub_cancel,
      Payload.set_get]

theorem reverses_inverse {form : UpdateForm} {col : Column} {d : Int32}
    (h : old.checkedAdd col d = some new) : (form.inverse old col d).Reverses old new := by
  cases form with
  | tid => exact rfl
  | range _ => exact h

/-! ## Chains -/

/-- The bytes after the writes, `p` before the first one. -/
def valueOf (p : Payload) : List Write → Payload
  | [] => p
  | w :: ws => w.result.getD (valueOf p ws)

/-- Each update starts from what the older writes have left. -/
def Chained (p : Payload) : List Write → Prop
  | [] => True
  | w :: ws =>
    (match w.change with
      | .update old new inverse => old = valueOf p ws ∧ inverse.Reverses old new
      | .delete => True) ∧ Chained p ws

variable {p : Payload} {w : Write} {ws : List Write}

theorem Chained.tail (h : Chained p (w :: ws)) : Chained p ws := h.2

theorem isUpdate_iff :
    w.isUpdate = true ↔ ∃ old new inverse, w.change = .update old new inverse := by
  rw [Write.isUpdate, decide_eq_true_eq]
  cases w.change with
  | update old new inverse => exact iff_of_true rfl ⟨old, new, inverse, rfl⟩
  | delete => exact iff_of_false nofun fun ⟨_, _, _, h⟩ => by cases h

theorem not_isUpdate_iff : w.isUpdate = false ↔ w.change = .delete := by
  rw [Write.isUpdate, decide_eq_false_iff_not]
  cases w.change with
  | update old new inverse => exact iff_of_false (fun h => h rfl) nofun
  | delete => exact iff_of_true nofun rfl

section

variable (hw : w.change = .update old new inverse)
include hw

theorem valueOf_update : valueOf p (w :: ws) = new := by
  rw [valueOf, Write.result, hw]
  rfl

theorem chained_update :
    Chained p (w :: ws) ↔ (old = valueOf p ws ∧ inverse.Reverses old new) ∧ Chained p ws := by
  rw [Chained, hw]

theorem record?_of_update (ht : w.trimmed = false) :
    w.record? =
      some { writerXid := w.stamp.xid, commandId := w.stamp.command, inverse := inverse } := by
  rw [Write.record?, hw]
  simp [ht]

end

theorem record?_eq_some {r : UndoRecord} (h : w.record? = some r) :
    w.trimmed = false ∧ r.writerXid = w.stamp.xid ∧ r.commandId = w.stamp.command ∧
      ∃ old new, w.change = .update old new r.inverse := by
  unfold Write.record? at h
  split at h
  · rename_i old new inverse hw
    split_ifs at h with ht
    cases h
    exact ⟨by simpa using ht, rfl, rfl, old, new, hw⟩
  · cases h

/-! ## Trims -/

theorem valueOf_trimBelow (h : ℕ) (ws : List Write) :
    valueOf p (ws.map (.trimBelow h)) = valueOf p ws := by
  induction ws with
  | nil => rfl
  | cons w ws ih =>
    rw [map_cons, valueOf, valueOf, ih]
    rfl

theorem Chained.trimBelow (h : ℕ) {ws : List Write} (hch : Chained p ws) :
    Chained p (ws.map (.trimBelow h)) := by
  induction ws with
  | nil => trivial
  | cons w ws ih =>
    refine ⟨?_, ih hch.tail⟩
    rw [valueOf_trimBelow]
    exact hch.1

theorem filterMap_record_trimBelow (h : ℕ) (ws : List Write) :
    (ws.map (.trimBelow h)).filterMap Write.record? =
      (ws.filterMap Write.record?).filter (h ≤ ·.writerXid) := by
  induction ws with
  | nil => rfl
  | cons w ws ih =>
    rw [map_cons, filterMap_cons, filterMap_cons, ih]
    cases hw : w.change with
    | delete => simp [Write.record?, Write.trimBelow, hw]
    | update old new inverse =>
      by_cases ht : w.trimmed = true
      · simp [Write.record?, Write.trimBelow, hw, ht]
      · by_cases hlt : w.stamp.xid < h
        · simp [Write.record?, Write.trimBelow, hw, ht, hlt]
        · simp [Write.record?, Write.trimBelow, hw, ht, hlt, not_lt.1 hlt]

/-! ## Readers -/

section Readers

variable {s : Snapshot} {oracle : Oracle} {current : Payload}

/-- The reader sees the write. -/
def Write.visible (s : Snapshot) (oracle : Oracle) (w : Write) : Bool :=
  undoWriterVisible w.stamp.xid w.stamp.command s oracle

theorem undoLoop_of_visible {log : List UndoRecord} {pre : Option Payload}
    (h : ∀ r ∈ log, undoWriterVisible r.writerXid r.commandId s oracle = true) :
    undoLoop current s oracle pre log = pre := by
  induction log with
  | nil => rfl
  | cons r log ih =>
    rw [undoLoop, if_pos (h r mem_cons_self)]
    exact ih fun r' hr' => h r' (mem_cons_of_mem _ hr')

theorem visible_of_mem_records {us : List Write} (h : ∀ u ∈ us, u.visible s oracle = true)
    {r : UndoRecord} (hr : r ∈ us.filterMap Write.record?) :
    undoWriterVisible r.writerXid r.commandId s oracle = true := by
  obtain ⟨u, hu, hur⟩ := mem_filterMap.1 hr
  obtain ⟨-, hx, hc, -⟩ := record?_eq_some hur
  rw [hx, hc]
  exact h u hu

/-- **What a reader rebuilds** from the updates `us`, of which it sees the older ones. -/
theorem undoLoop_chain {us : List Write} (hup : ∀ u ∈ us, u.isUpdate = true) (hch : Chained p us)
    (hdown : us.Pairwise fun a b => a.visible s oracle = true → b.visible s oracle = true)
    (htrim : ∀ u ∈ us, u.trimmed = true → u.visible s oracle = true) {pre : Option Payload}
    (hpre : pre.getD current = valueOf p us) :
    undoLoop current s oracle pre (us.filterMap Write.record?) =
      if us.all (·.visible s oracle) then pre
      else some (valueOf p (us.filter (·.visible s oracle))) := by
  induction us generalizing pre with
  | nil => rfl
  | cons u us ih =>
    obtain ⟨hfirst, hrest⟩ := pairwise_cons.1 hdown
    by_cases hu : u.visible s oracle = true
    · -- a seen writer: everything older is seen as well
      have hall : ∀ v ∈ u :: us, v.visible s oracle = true :=
        forall_mem_cons.2 ⟨hu, fun v hv => hfirst v hv hu⟩
      rw [undoLoop_of_visible fun r hr => visible_of_mem_records hall hr,
        if_pos (all_eq_true.2 hall)]
    · have ht : u.trimmed = false := by
        rw [← Bool.not_eq_true]
        exact fun ht => hu (htrim u mem_cons_self ht)
      obtain ⟨old, new, inverse, hw⟩ := isUpdate_iff.1 (hup u mem_cons_self)
      obtain ⟨⟨hold, hrev⟩, htail⟩ := (chained_update hw).1 hch
      rw [valueOf_update hw] at hpre
      have hback : undoLoop current s oracle pre ((u :: us).filterMap Write.record?) =
          undoLoop current s oracle (some old) (us.filterMap Write.record?) := by
        rw [filterMap_cons_some (record?_of_update hw ht), undoLoop]
        dsimp only
        rw [if_neg (show ¬ undoWriterVisible u.stamp.xid u.stamp.command s oracle = true from hu)]
        cases inverse with
        | full o =>
          obtain rfl : o = old := hrev
          rfl
        | delta col d => simp only [hpre, Payload.reverseDelta_of_checkedAdd hrev]
      have hnot : ¬ (u :: us).all (·.visible s oracle) = true := by
        rw [all_cons, Bool.and_eq_true]
        exact fun h => hu h.1
      rw [hback, ih (fun v hv => hup v (mem_cons_of_mem _ hv)) htail hrest
        (fun v hv => htrim v (mem_cons_of_mem _ hv)) (by rw [Option.getD_some, hold]),
        if_neg hnot, filter_cons_of_neg hu]
      split_ifs with hall
      · rw [filter_eq_self.2 (all_eq_true.1 hall), hold]
      · rfl

end Readers

/-! ## Rollbacks -/

/-- The records of some XIDs are those of the updates with these XIDs. -/
theorem filter_records (q : ℕ → Bool) (ws : List Write) :
    (ws.filterMap Write.record?).filter (fun r => q r.writerXid) =
      (ws.filter fun w => q w.stamp.xid).filterMap Write.record? := by
  induction ws with
  | nil => rfl
  | cons w ws ih =>
    cases hr : w.record? with
    | none =>
      rw [filterMap_cons_none hr, ih, filter_cons]
      split_ifs
      · rw [filterMap_cons_none hr]
      · rfl
    | some r =>
      rw [filterMap_cons_some hr, filter_cons, filter_cons,
        (record?_eq_some hr).2.1, ih]
      split_ifs
      · rw [filterMap_cons_some hr]
      · rfl

/-- **What the rollback of `z` leaves** of the updates `us`; those of `z` are the newest. -/
theorem foldl_restore_chain {us : List Write} {z : ℕ} (hup : ∀ u ∈ us, u.isUpdate = true)
    (hch : Chained p us) (hnew : us.Pairwise fun a b => b.stamp.xid = z → a.stamp.xid = z)
    (htrim : ∀ u ∈ us, u.stamp.xid = z → u.trimmed = false) :
    ((us.filter (·.stamp.xid = z)).filterMap Write.record?).foldl
        (fun p u => Row.restore p u.inverse) (valueOf p us) =
      valueOf p (us.filter (·.stamp.xid ≠ z)) := by
  induction us with
  | nil => rfl
  | cons u us ih =>
    obtain ⟨hfirst, hrest⟩ := pairwise_cons.1 hnew
    by_cases hz : u.stamp.xid = z
    · obtain ⟨old, new, inverse, hw⟩ := isUpdate_iff.1 (hup u mem_cons_self)
      obtain ⟨⟨hold, hrev⟩, htail⟩ := (chained_update hw).1 hch
      rw [filter_cons_of_pos (by simpa using hz), filter_cons_of_neg (by simpa using hz),
        filterMap_cons_some (record?_of_update hw (htrim u mem_cons_self hz)),
        foldl_cons, valueOf_update hw, hrev.restore, hold]
      exact ih (fun v hv => hup v (mem_cons_of_mem _ hv)) htail hrest
        fun v hv => htrim v (mem_cons_of_mem _ hv)
    · -- nothing of `z` is left
      have hno : ∀ v ∈ u :: us, v.stamp.xid ≠ z :=
        forall_mem_cons.2 ⟨hz, fun v hv h => hz (hfirst v hv h)⟩
      rw [filter_eq_nil_iff.2 fun v hv => by simpa using hno v hv,
        filter_eq_self.2 fun v hv => by simpa using hno v hv]
      rfl

/-- The rest of a chain after the newest writes are taken out. -/
theorem Chained.filter_ne {us : List Write} {z : ℕ} (hch : Chained p us)
    (hnew : us.Pairwise fun a b => b.stamp.xid = z → a.stamp.xid = z) :
    Chained p (us.filter (·.stamp.xid ≠ z)) := by
  induction us with
  | nil => trivial
  | cons u us ih =>
    obtain ⟨hfirst, hrest⟩ := pairwise_cons.1 hnew
    by_cases hz : u.stamp.xid = z
    · rw [filter_cons_of_neg (by simpa using hz)]
      exact ih hch.tail hrest
    · rw [filter_eq_self.2]
      · exact hch
      · intro v hv
        rcases mem_cons.1 hv with rfl | hv
        · simpa using hz
        · simpa using fun h => hz (hfirst v hv h)

end UltraSql.Heap
