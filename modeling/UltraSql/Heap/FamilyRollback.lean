import UltraSql.Heap.SlotSteps

/-!
# The rollback of a transaction with its savepoints

`rollback_in_place_update_family` takes the writes of an unfinished transaction and of its
subtransactions out of the heap, one XID after the other and the newest first.

**Theorem (`rollbackFamily_restores`).** A row gets its payload back exactly if its updates, undone
by their XIDs, give the payload that they give undone newest first. They do if those that have kept
a full pre-image are undone after all newer and before all older ones. No row stays deleted, the
other undo records and rows are as before, and a second call finds nothing to do.

**Theorem (`parent_after_savepoint`).** A transaction that updates a row after it has released a
savepoint does so with an older XID than the savepoint's. Its pre-image is restored last.
-/

namespace UltraSql.Heap

open List

/-- `rollback_in_place_updates`, on one row. -/
def Row.rollbackXid (tid : TupleId) (r : Row) (xid : ℕ) : Row :=
  (r.rollbackUpdates xid).rollbackStamps xid tid

def newestFirst (xids : List ℕ) : List ℕ := (xids.insertionSort (· ≥ ·)).dedup

def rollbackFamily (xids : List ℕ) (heap : TupleId → Row) : TupleId → Row :=
  (newestFirst xids).foldl (fun heap xid tid => (heap tid).rollbackXid tid xid) heap

/-- What a family of XIDs makes of a row that nobody else writes. -/
inductive Written (family : List ℕ) (r : Row) : Row → Prop
  | refl : Written family r r
  | update {r₁ r₂ : Row} {form : UpdateForm} {s : Snapshot} {oracle : Oracle}
    {predicate : Payload → Bool} {col : Column} {delta : Int32} {xid command : ℕ} :
    Written family r r₁ → xid ∈ family →
    r₁.update form s oracle predicate col delta xid command = .ok (some r₂) → Written family r r₂
  | delete {r₁ r₂ : Row} {s : Snapshot} {oracle : Oracle} {predicate : Payload → Bool}
    {xid command : ℕ} : Written family r r₁ → xid ∈ family →
    r₁.delete s oracle predicate xid command = .ok (some r₂) → Written family r r₂

/-- The family has not written the row. -/
structure Foreign (family : List ℕ) (r : Row) : Prop where
  undo : ∀ u ∈ r.undo, u.writerXid ∉ family
  xmax : r.header.xmax ∉ family

/-- The records of the family in the order in which they are undone. -/
def undoOrder (family : List ℕ) (r : Row) : List UndoRecord :=
  (newestFirst family).flatMap fun z => r.undo.filter (·.writerXid = z)

/-- Undone by their XIDs, the updates of the family give what they give undone newest first. -/
def SameUndo (family : List ℕ) (r : Row) : Prop :=
  (undoOrder family r).foldl (fun p u => Row.restore p u.inverse) r.payload =
    (r.undo.filter (·.writerXid ∈ family)).foldl (fun p u => Row.restore p u.inverse) r.payload

def Inverse.isFull : Inverse → Bool
  | .full _ => true
  | .delta _ _ => false

/-- The updates of the family that have kept a full pre-image are undone after all newer and before
all older ones. -/
def FullsInOrder (family : List ℕ) (r : Row) : Prop :=
  (r.undo.filter (·.writerXid ∈ family)).Pairwise fun newer older =>
    newer.inverse.isFull ∨ older.inverse.isFull → older.writerXid ≤ newer.writerXid

variable {family order : List ℕ} {r r₀ : Row} {recs : List UndoRecord} {z : ℕ} {t : TupleId}

/-! ## Deltas -/

/-- Two deltas are undone in any order. -/
theorem restore_comm {i j : Inverse} (hi : i.isFull = false) (hj : j.isFull = false) (p : Payload) :
    Row.restore (Row.restore p i) j = Row.restore (Row.restore p j) i := by
  cases i with
  | full => cases hi
  | delta c d =>
    cases j with
    | full => cases hj
    | delta c' d' =>
      cases c <;> cases c' <;> grind [Row.restore, Payload.get, Payload.set]

/-- The records of the largest XID may be undone first. -/
theorem foldl_filter_append (hz : ∀ u ∈ recs, u.writerXid ≤ z)
    (h : recs.Pairwise fun newer older =>
      newer.inverse.isFull ∨ older.inverse.isFull → older.writerXid ≤ newer.writerXid)
    (p : Payload) :
    (recs.filter (·.writerXid = z) ++ recs.filter (·.writerXid ≠ z)).foldl
      (fun p u => Row.restore p u.inverse) p =
        recs.foldl (fun p u => Row.restore p u.inverse) p := by
  induction recs generalizing p with
  | nil => rfl
  | cons u recs ih =>
    obtain ⟨hu, h⟩ := pairwise_cons.1 h
    have ih := ih (fun v hv => hz v (mem_cons_of_mem _ hv)) h
    by_cases hx : u.writerXid = z
    · simpa [hx] using ih _
    · have hlt : u.writerXid < z := lt_of_le_of_ne (hz u mem_cons_self) hx
      have hdelta : ∀ v ∈ recs.filter (·.writerXid = z),
          u.inverse.isFull = false ∧ v.inverse.isFull = false := by
        intro v hv
        obtain ⟨hv, hvz⟩ := mem_filter.1 hv
        have := (hu v hv).mt (by rw [of_decide_eq_true hvz]; omega)
        simpa using this
      have hmove := (perm_append_singleton u (recs.filter (·.writerXid = z))).foldl_eq'
        (f := fun p u => Row.restore p u.inverse) (fun v hv w hw q => ?_) p
      · rw [filter_cons_of_neg (by simpa using hx), filter_cons_of_pos (by simpa using hx),
          ← singleton_append, ← append_assoc, foldl_append, hmove, foldl_cons, foldl_cons,
          ← foldl_append]
        exact ih _
      · by_cases hvw : v = w
        · rw [hvw]
        · exact restore_comm (by grind) (by grind) q

theorem flatMap_filter_ne (hlt : ∀ x ∈ order, z > x) :
    (order.flatMap fun x => (recs.filter (·.writerXid ≠ z)).filter (·.writerXid = x)) =
      order.flatMap fun x => recs.filter (·.writerXid = x) := by
  refine flatMap_congr fun x hx => ?_
  rw [filter_filter]
  refine filter_congr fun u _ => ?_
  grind [hlt x hx]

/-- The state of a row in the middle of the rollback: the newest undo records are those of the XIDs
that are left. -/
structure Unwinding (family : List ℕ) (r₀ : Row) (order : List ℕ) (recs : List UndoRecord)
    (r : Row) : Prop where
  undo : r.undo = recs ++ r₀.undo
  writer : ∀ u ∈ recs, u.writerXid ∈ order
  stamp : r.header.xmax ∈ family → r.header.xmax ∈ order ∧
    (r.header.infomask.updatedInPlace = true → ∃ u ∈ recs, u.writerXid = r.header.xmax)

/-- **One XID.** -/
theorem Unwinding.rollbackXid (hr : Foreign family r₀) (h0 : 0 ∉ family) (hz : z ∈ family)
    (h : Unwinding family r₀ (z :: order) recs r) :
    Unwinding family r₀ order (recs.filter (·.writerXid ≠ z)) (r.rollbackXid t z) ∧
      (r.rollbackXid t z).payload = (recs.filter (·.writerXid = z)).foldl
        (fun p u => Row.restore p u.inverse) r.payload := by
  obtain ⟨hundo, hwriter, hstamp⟩ := h
  have hmine : r.undo.filter (·.writerXid = z) = recs.filter (·.writerXid = z) := by
    have hnone : r₀.undo.filter (·.writerXid = z) = [] :=
      filter_eq_nil_iff.2 fun u hu => by grind [hr.undo]
    rw [hundo, filter_append, hnone, append_nil]
  have hothers : r.undo.filter (·.writerXid ≠ z) = recs.filter (·.writerXid ≠ z) ++ r₀.undo := by
    have hall : r₀.undo.filter (·.writerXid ≠ z) = r₀.undo :=
      filter_eq_self.2 fun u hu => by grind [hr.undo]
    rw [hundo, filter_append, hall]
  have hwriter' : ∀ u ∈ recs.filter (·.writerXid ≠ z), u.writerXid ∈ order := by grind
  rw [Row.rollbackXid, Row.rollbackUpdates, hmine, hothers]
  by_cases hnone : recs.filter (·.writerXid = z) = []
  · have hsame : recs.filter (·.writerXid ≠ z) = recs :=
      filter_eq_self.2 fun u hu => by simpa using filter_eq_nil_iff.1 hnone u hu
    rw [hsame] at hwriter' ⊢
    rw [hnone, isEmpty_nil, if_pos rfl, Row.rollbackStamps]
    split_ifs with hkeep
    · exact ⟨⟨hundo, hwriter', by grind⟩, rfl⟩
    · exact ⟨⟨hundo, hwriter', fun hx => absurd hx h0⟩, rfl⟩
  · have hzero : (0 : ℕ) ≠ z := (ne_of_mem_of_not_mem hz h0).symm
    rw [if_neg (by rwa [List.isEmpty_iff]), Row.rollbackStamps, if_pos (.inl hzero)]
    exact ⟨⟨rfl, hwriter', fun hx => absurd hx h0⟩, rfl⟩

theorem Foreign.rollbackXid (h : Foreign family r) (hz : z ∈ family) : r.rollbackXid tid z = r := by
  have hnone : r.undo.filter (·.writerXid = z) = [] :=
    filter_eq_nil_iff.2 fun u hu => by grind [h.undo]
  rw [Row.rollbackXid, Row.rollbackUpdates, hnone]
  exact if_pos (.inl (ne_of_mem_of_not_mem hz h.xmax).symm)

theorem rollbackFamily_apply (xids : List ℕ) (heap : TupleId → Row) (tid : TupleId) :
    rollbackFamily xids heap tid = (newestFirst xids).foldl (.rollbackXid tid) (heap tid) := by
  unfold rollbackFamily
  induction newestFirst xids generalizing heap with
  | nil => rfl
  | cons z order ih => exact ih _

theorem mem_newestFirst : z ∈ newestFirst family ↔ z ∈ family := by
  rw [newestFirst, mem_dedup, mem_insertionSort]

theorem newestFirst_pairwise (xids : List ℕ) : (newestFirst xids).Pairwise (· > ·) := by
  have hle : (newestFirst xids).Pairwise (· ≥ ·) :=
    (pairwise_insertionSort _ xids).sublist (dedup_sublist _)
  exact (hle.and (nodup_dedup _)).imp fun h => lt_of_le_of_ne h.1 h.2.symm

theorem Foreign.foldl (h : Foreign family r) (hsub : ∀ x ∈ order, x ∈ family) :
    order.foldl (.rollbackXid tid) r = r := by
  induction order with
  | nil => rfl
  | cons z order ih =>
    rw [foldl_cons, h.rollbackXid (hsub z mem_cons_self)]
    exact ih fun x hx => hsub x (mem_cons_of_mem _ hx)

/-- **The whole family.** -/
theorem Unwinding.foldl (hr : Foreign family r₀) (h0 : 0 ∉ family) (hsub : ∀ x ∈ order, x ∈ family)
    (hsorted : order.Pairwise (· > ·)) (h : Unwinding family r₀ order recs r) :
    Unwinding family r₀ [] [] (order.foldl (.rollbackXid t) r) ∧
      (order.foldl (.rollbackXid t) r).payload =
        (order.flatMap fun z => recs.filter (·.writerXid = z)).foldl
          (fun p u => Row.restore p u.inverse) r.payload := by
  induction order generalizing r recs with
  | nil =>
    obtain rfl : recs = [] := eq_nil_iff_forall_not_mem.2 fun u hu => nomatch h.writer u hu
    exact ⟨h, rfl⟩
  | cons z order ih =>
    obtain ⟨hlt, hsorted⟩ := pairwise_cons.1 hsorted
    obtain ⟨hstep, hpayload⟩ := h.rollbackXid (t := t) hr h0 (hsub z mem_cons_self)
    obtain ⟨hdone, hrest⟩ := ih (fun x hx => hsub x (mem_cons_of_mem _ hx)) hsorted hstep
    refine ⟨hdone, hrest.trans ?_⟩
    rw [flatMap_filter_ne hlt, hpayload, flatMap_cons, foldl_append]

/-- **Full pre-images in order.** -/
theorem foldl_flatMap_filter (hsorted : order.Pairwise (· > ·))
    (hwriter : ∀ u ∈ recs, u.writerXid ∈ order)
    (h : recs.Pairwise fun newer older =>
      newer.inverse.isFull ∨ older.inverse.isFull → older.writerXid ≤ newer.writerXid)
    (p : Payload) :
    (order.flatMap fun z => recs.filter (·.writerXid = z)).foldl
      (fun p u => Row.restore p u.inverse) p =
        recs.foldl (fun p u => Row.restore p u.inverse) p := by
  induction order generalizing recs p with
  | nil =>
    obtain rfl : recs = [] := eq_nil_iff_forall_not_mem.2 fun u hu => nomatch hwriter u hu
    rfl
  | cons z order ih =>
    obtain ⟨hlt, hsorted⟩ := pairwise_cons.1 hsorted
    rw [flatMap_cons, ← flatMap_filter_ne hlt, foldl_append, ih hsorted (by grind) (h.filter _),
      ← foldl_append]
    exact foldl_filter_append (by grind) h p

/-- **What the family has written leads back.** -/
theorem Written.unwinds (h : Written family r₀ r) (hr : Foreign family r₀) :
    ∃ recs, r.undo = recs ++ r₀.undo ∧ (∀ u ∈ recs, u.writerXid ∈ family) ∧
      recs.foldl (fun p u => Row.restore p u.inverse) r.payload = r₀.payload ∧
      (r.header.xmax ∈ family → r.header.infomask.updatedInPlace = true →
        ∃ u ∈ recs, u.writerXid = r.header.xmax) := by
  induction h with
  | refl => exact ⟨[], rfl, nofun, rfl, fun h => absurd h hr.xmax⟩
  | update _ hx hupd ih =>
    obtain ⟨recs, hundo, hwriter, hpayload, -⟩ := ih
    obtain ⟨-, new, hnew, rfl⟩ := Row.update_ok hupd
    refine ⟨_ :: recs, by rw [hundo]; rfl, forall_mem_cons.2 ⟨hx, hwriter⟩, ?_,
      fun _ _ => ⟨_, mem_cons_self, rfl⟩⟩
    rw [foldl_cons, (reverses_inverse hnew).restore]
    exact hpayload
  | delete _ _ hdel ih =>
    obtain ⟨recs, hundo, hwriter, hpayload, hstamp⟩ := ih
    obtain ⟨-, -, rfl⟩ := Row.delete_ok hdel
    refine ⟨recs, hundo, hwriter, hpayload, fun _ hin => ?_⟩
    simp only [TupleHeader.stampDelete] at hin
    split_ifs at hin with h
    exact absurd hin h

/-- **The rollback restores the heap**, but for payloads that are undone in the wrong order. -/
theorem rollbackFamily_restores (family : List ℕ) (h0 : 0 ∉ family) (before now : TupleId → Row)
    (hbefore : ∀ tid, Foreign family (before tid))
    (hnow : ∀ tid, Written family (before tid) (now tid)) :
    (∀ tid, ((rollbackFamily family now tid).payload = (before tid).payload ↔
        SameUndo family (now tid)) ∧
      (FullsInOrder family (now tid) → SameUndo family (now tid)) ∧
      (rollbackFamily family now tid).header.xmax ∉ family ∧
      (rollbackFamily family now tid).undo = (before tid).undo ∧
      (now tid = before tid → rollbackFamily family now tid = now tid)) ∧
    rollbackFamily family (rollbackFamily family now) = rollbackFamily family now := by
  have hsub : ∀ x ∈ newestFirst family, x ∈ family := fun x => mem_newestFirst.1
  have hsorted := newestFirst_pairwise family
  have hdone : ∀ tid, Unwinding family (before tid) [] [] (rollbackFamily family now tid) ∧
      ((rollbackFamily family now tid).payload = (before tid).payload ↔
        SameUndo family (now tid)) ∧
      (FullsInOrder family (now tid) → SameUndo family (now tid)) := by
    intro tid
    obtain ⟨recs, hundo, hwriter, hpayload, hstamp⟩ := (hnow tid).unwinds (hbefore tid)
    have hwriter' : ∀ u ∈ recs, u.writerXid ∈ newestFirst family := fun u hu =>
      mem_newestFirst.2 (hwriter u hu)
    have hfilter : (now tid).undo.filter (·.writerXid ∈ family) = recs := by
      rw [hundo, filter_append, filter_eq_self.2 fun u hu => decide_eq_true (hwriter u hu),
        filter_eq_nil_iff.2 fun u hu => by simpa using (hbefore tid).undo u hu, append_nil]
    have horder : undoOrder family (now tid) =
        (newestFirst family).flatMap fun z => recs.filter (·.writerXid = z) := by
      refine flatMap_congr fun z hz => ?_
      have hnone : (before tid).undo.filter (·.writerXid = z) = [] :=
        filter_eq_nil_iff.2 fun u hu => by grind [(hbefore tid).undo u hu]
      rw [hundo, filter_append, hnone, append_nil]
    obtain ⟨hun, hres⟩ := Unwinding.foldl (t := tid) (hbefore tid) h0 hsub hsorted
      ⟨hundo, hwriter', fun hx => ⟨mem_newestFirst.2 hx, hstamp hx⟩⟩
    rw [rollbackFamily_apply, SameUndo, FullsInOrder, horder, hfilter, hres, hpayload]
    exact ⟨hun, Iff.rfl, fun h => (foldl_flatMap_filter hsorted hwriter' h _).trans hpayload⟩
  have hforeign : ∀ tid, Foreign family (rollbackFamily family now tid) := fun tid =>
    ⟨fun u hu => (hbefore tid).undo u (by rwa [(hdone tid).1.undo] at hu),
      fun hx => nomatch ((hdone tid).1.stamp hx).1⟩
  refine ⟨fun tid => ⟨(hdone tid).2.1, (hdone tid).2.2, (hforeign tid).xmax, (hdone tid).1.undo,
    fun heq => ?_⟩, funext fun tid => ?_⟩
  · rw [rollbackFamily_apply, heq]
    exact (hbefore tid).foldl hsub
  · rw [rollbackFamily_apply]
    exact (hforeign tid).foldl hsub

/-! ## A parent and its savepoint -/

def original : Row where
  header := .fresh 3 0 ⟨1, 0, 0⟩
  payload := { id := 1, val := 100 }
  undo := []

/-- The value is increased twice, by the parent 10 or by its released savepoint 11. -/
def increased (r : Row) (xid command : ℕ) : Row where
  header := r.header.stampUpdate xid command
  payload := { r.payload with val := r.payload.val + 1 }
  undo := ⟨xid, command, .full r.payload⟩ :: r.undo

/-- The snapshot of a command of the parent after the savepoint. -/
def parentSnapshot (command : ℕ) : Snapshot :=
  (Snapshot.new 10 12 10 command []).setOwnSubxids [11] []

theorem written_increased {a b : ℕ} (ha : a = 10 ∨ a = 11) (hb : b = 10 ∨ b = 11) :
    Written [10, 11] original (increased (increased original a 1) b 2) := by
  have h₁ : original.update .tid (parentSnapshot 1) (fun _ => .committed) (fun _ => true) .val 1 a
      1 = .ok (some (increased original a 1)) := by
    rcases ha with rfl | rfl <;> rfl
  have h₂ : (increased original a 1).update .tid (parentSnapshot 2) (fun _ => .committed)
      (fun _ => true) .val 1 b 2 = .ok (some (increased (increased original a 1) b 2)) := by
    rcases ha with rfl | rfl <;> rcases hb with rfl | rfl <;> rfl
  exact .update (.update .refl (by simp [ha]) h₁) (by simp [hb]) h₂

/-- The savepoint is the last one to write, and the first one to be undone. -/
theorem savepoint_after_parent :
    (rollbackFamily [10, 11] (fun _ => increased (increased original 10 1) 11 2)
      ⟨1, 0, 0⟩).payload = original.payload := by
  obtain ⟨hiff, horder, -⟩ := (rollbackFamily_restores [10, 11] (by decide) (fun _ => original) _
    (fun _ => ⟨nofun, by decide⟩) (fun _ => written_increased (.inl rfl) (.inr rfl))).1 ⟨1, 0, 0⟩
  exact hiff.2 (horder (by unfold FullsInOrder; decide))

/-- **The parent writes after its savepoint.** -/
theorem parent_after_savepoint : ∃ r, Foreign [10, 11] original ∧ Written [10, 11] original r ∧
    (rollbackFamily [10, 11] (fun _ => r) ⟨1, 0, 0⟩).payload ≠ original.payload :=
  ⟨_, ⟨nofun, by decide⟩, written_increased (.inr rfl) (.inl rfl), by decide⟩

end UltraSql.Heap
