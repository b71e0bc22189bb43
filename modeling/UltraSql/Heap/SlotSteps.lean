import UltraSql.Heap.SlotInv

/-!
# What steps do to a slot

Every step keeps `SlotInv`, as long as a writer whose walk through the undo log gives nothing has
nothing to find there. The walk stops at a delta that it cannot reverse, which does not happen in a
slot with a `Chain`. Every step keeps that as well, as long as a visit that undoes the updates of an
XID finds them newest in the slot.

**Theorem (`SlotInv.writable`).** A writer that acts on a row sees its insert and all its live
updates.
-/

namespace UltraSql.Heap

open List
open Timeline (Visit Client Horizon)
open Savepoints (own_writeXid)

variable {t t' : Timeline.State} {x z k : ℕ} {c : Client} {w : Write} {sl : Slot}

/-! ## Writers -/

section Writes

variable {r r' : Row} {form : UpdateForm} {s : Snapshot} {oracle : Oracle}
  {predicate : Payload → Bool} {col : Column} {d : Int32} {xid command : ℕ}

/-- The answers of the visibility check after which a writer acts. -/
def Admits (r : Row) (v : Visibility) (s : Snapshot) (oracle : Oracle) : Prop :=
  v = .visible ∨ v = .visibleMaybePreImage ∧ undoPreImage r.undo r.payload s oracle = none

theorem Row.act_ok (h : Row.update.act form predicate col d xid command r = .ok (some r')) :
    ∃ new, r.payload.checkedAdd col d = some new ∧ r' =
      { header := r.header.stampUpdate xid command
        payload := new
        undo := { writerXid := xid, commandId := command,
                  inverse := form.inverse r.payload col d } :: r.undo } := by
  unfold Row.update.act at h
  split_ifs at h
  · split at h
    · cases h
    · rename_i new hnew
      cases h
      exact ⟨new, hnew, rfl⟩
  · cases h

theorem Row.update_ok
    (h : r.update form s oracle predicate col d xid command = .ok (some r')) :
    Admits r (form.visibility r.header s oracle) s oracle ∧
      ∃ new, r.payload.checkedAdd col d = some new ∧ r' =
        { header := r.header.stampUpdate xid command
          payload := new
          undo := { writerXid := xid, commandId := command,
                    inverse := form.inverse r.payload col d } :: r.undo } := by
  unfold Row.update at h
  split at h
  · rename_i hv
    exact ⟨.inl hv, Row.act_ok h⟩
  · split_ifs at h
    cases h
  · rename_i hv
    split at h
    · split_ifs at h
      cases h
    · rename_i hnone
      exact ⟨.inr ⟨hv, hnone⟩, Row.act_ok h⟩
  · cases h
  · cases h

theorem Row.deleteAllowed_ok (h : r.deleteAllowed s oracle predicate = .ok true) :
    Admits r (isVisible r.header s oracle) s oracle := by
  unfold Row.deleteAllowed at h
  split at h
  · rename_i hv
    exact .inl hv
  · cases h
  · cases h
  · split at h
    · cases h
    · split_ifs at h
      cases h
  · rename_i hv
    split at h
    · rename_i hnone
      exact .inr ⟨hv, hnone⟩
    · split_ifs at h
      cases h

theorem Row.delete_ok (h : r.delete s oracle predicate xid command = .ok (some r')) :
    Admits r (isVisible r.header s oracle) s oracle ∧
      (r.header.xmax ≠ 0 → r.header.xmax ≠ xid → (oracle r.header.xmax).isInProgress = false) ∧
      r' = { r with header := r.header.stampDelete xid command } := by
  unfold Row.delete at h
  split at h
  · cases h
  · cases h
  · rename_i hallowed
    split_ifs at h with hpred hconf
    · cases h
      refine ⟨Row.deleteAllowed_ok hallowed, fun h₀ hne => ?_, rfl⟩
      have hvalid : Xid.isInvalid r.header.xmax = false := by
        rw [← Bool.not_eq_true, Xid.isInvalid_iff]
        exact h₀
      simpa [hvalid, hne] using hconf
    · cases h

/-- The command of another row with the same inserter and mask does not mislead the range update
about a row that its statement has not inserted. -/
theorem isVisible_of_cmin {h : TupleHeader} {m : ℕ}
    (hcm : s.isCurrentXid h.xmin = true → h.cmin < s.currentCommand)
    (hv : isVisible { h with cmin := m } s oracle = .visible) :
    isVisible h s oracle = .visible := by
  unfold isVisible at hv ⊢
  dsimp only at hv
  by_cases hcur : s.isCurrentXid h.xmin = true
  · have hlt : ¬ s.currentCommand ≤ h.cmin := not_le.2 (hcm hcur)
    simp only [hcur, if_true] at hv ⊢
    unfold isVisibleOwn at hv ⊢
    dsimp only at hv
    rw [if_neg hlt]
    split_ifs at hv ⊢ <;> rfl
  · simp only [hcur] at hv ⊢
    exact hv

end Writes

/-- The walk through the undo log gives the bytes before some write if there is one that the
snapshot does not see. -/
def Row.walks (r : Row) (s : Snapshot) (oracle : Oracle) : Prop :=
  undoPreImage r.undo r.payload s oracle = none →
    ∀ u ∈ r.undo, undoWriterVisible u.writerXid u.commandId s oracle = true

instance (r : Row) (s : Snapshot) (oracle : Oracle) : Decidable (r.walks s oracle) :=
  inferInstanceAs (Decidable (_ → _))

/-- The slot has not been written by the running statement of `x`. -/
structure Untouched (sl : Slot) (x command : ℕ) : Prop where
  insert : sl.inserted.owner = x → sl.inserted.command < command
  write : ∀ w ∈ sl.writes, w.stamp.owner = x → w.stamp.command < command

namespace SlotInv

section Writer

variable (hs : SlotInv t sl) (hi : Timeline.Inv t) (hc : t.clients.lookup x = some c)
  (hp : c.phase = .running) (hfresh : Untouched sl x k)

include hs hi hc hp hfresh

omit hp in
/-- A row that a writer may act on, by the header's own check. -/
theorem admits_isVisible {form : UpdateForm}
    (h : Admits sl.row (form.visibility sl.row.header (snapshotAt c k) t.mgr.status)
      (snapshotAt c k) t.mgr.status) :
    Admits sl.row (isVisible sl.row.header (snapshotAt c k) t.mgr.status) (snapshotAt c k)
      t.mgr.status := by
  cases form with
  | tid => exact h
  | range m =>
    unfold UpdateForm.visibility rangeVisibility at h
    dsimp only at h
    split_ifs at h with hx hv
    · refine .inl (isVisible_of_cmin (fun hcur => ?_) hv)
      rw [hs.cmin]
      refine hfresh.insert ?_
      by_contra hne
      rw [hs.xmin] at hcur
      have := (foreign_xid hi hc hs.heldInsert hne).1
      exact absurd (show c.handle.snapshot.isCurrentXid sl.inserted.xid = true from hcur)
        (by simp [this])
    · rcases h with h | ⟨h, -⟩ <;> cases h
    · exact h

omit hfresh in
theorem walks (hchain : Chain sl) : sl.row.walks (snapshotAt c k) t.mgr.status := by
  intro hnone
  rw [hs.undoPreImage_eq hi hc hp hchain] at hnone
  split_ifs at hnone with hall
  rw [hs.undo_visible_iff hi hc]
  exact fun w hw _ => all_eq_true.1 hall w hw

/-- **A writer that acts sees the row's insert and all its live updates.** -/
theorem writable (hwalk : sl.row.walks (snapshotAt c k) t.mgr.status)
    (h : Admits sl.row (isVisible sl.row.header (snapshotAt c k) t.mgr.status)
      (snapshotAt c k) t.mgr.status) :
    sees t x k sl.inserted = true ∧ ∀ w ∈ sl.updates, sees t x k w.stamp = true := by
  have hins : sees t x k sl.inserted = true := by
    by_contra hno
    rw [hs.isVisible_unseen hi hc (Bool.not_eq_true _ |>.mp hno)] at h
    rcases h with h | ⟨h, -⟩ <;> cases h
  refine ⟨hins, ?_⟩
  -- a row whose header leads to the undo log, or whose undo log is empty
  have hout : Admits sl.row (if sl.inserted.owner = x then .visible
      else sl.row.header.visibleOutcome) (snapshotAt c k) t.mgr.status →
      sl.row.header.infomask.updatedInPlace = false →
      ∀ w ∈ sl.updates, sees t x k w.stamp = true := by
    intro ha hu w hw
    have hlive := (mem_updates.1 hw).1
    by_cases ho : sl.inserted.owner = x
    · obtain ⟨hwo, hown⟩ := hs.own_of_ownInsert hc hp ho hlive
      exact (sees_own hc hwo).2 ⟨hown, hfresh.write w (mem_live.1 hlive).1 hwo⟩
    · rw [if_neg ho, TupleHeader.visibleOutcome] at ha
      split_ifs at ha with hh
      · have hnone :
            undoPreImage sl.row.undo sl.row.payload (snapshotAt c k) t.mgr.status = none := by
          rcases ha with ha | ⟨-, ha⟩
          · cases ha
          · exact ha
        by_cases ht : w.trimmed = true
        · exact hs.sees_of_trimmed hi hc hp hlive ht
        · exact (hs.undo_visible_iff hi hc).1 (hwalk hnone) w hw (Bool.not_eq_true _ |>.mp ht)
      · have hundo : sl.row.undo = [] := by
          by_contra hne
          rcases hs.history hne with h' | h'
          · rw [hu] at h'
            cases h'
          · exact hh h'
        refine hs.sees_of_trimmed hi hc hp hlive ?_
        by_contra ht
        obtain ⟨old, new, inverse, hch⟩ := isUpdate_iff.1 (mem_updates.1 hw).2
        have hr := record?_of_update hch (Bool.not_eq_true _ |>.mp ht)
        have : _ ∈ sl.updates.filterMap Write.record? := mem_filterMap.2 ⟨w, hw, hr⟩
        rw [← hs.undo, hundo] at this
        cases this
  cases hu : sl.row.header.infomask.updatedInPlace with
  | true =>
    obtain ⟨w, hw, -⟩ := hs.inPlace hu
    rw [hs.isVisible_inPlace hi hc hp hins hu hw] at h
    refine hs.updates_seen_of_head hi hc hp hw ?_
    by_contra hno
    rw [if_neg hno] at h
    rcases h with h | ⟨h, -⟩ <;> cases h
  | false =>
    by_cases hx : sl.row.header.xmax = 0
    · rw [hs.isVisible_unstamped hi hc hins hu hx] at h
      exact hout h hu
    · obtain ⟨w, hw, -, hxmax, hcmax⟩ := hs.classical hu hx
      rw [hs.isVisible_deleted hi hc hp hins hu hw hxmax hcmax] at h
      split_ifs at h with hseen ho ho
      · rcases h with h | ⟨h, -⟩ <;> cases h
      · rcases h with h | ⟨h, -⟩ <;> cases h
      · refine hout ?_ hu
        rw [if_pos ho]
        exact h
      · refine hout ?_ hu
        rw [if_neg ho]
        exact h

end Writer

/-! ## Preservation -/

theorem mono (hs : SlotInv t sl) (he : Evolves t t') (hl : ∀ w ∈ sl.live, Alive t' w) :
    SlotInv t' sl where
  __ := hs
  heldInsert := hs.heldInsert.mono he
  held w hw := (hs.held w hw).mono he
  alive := hl
  gone w hw hu := (hs.gone w hw hu).mono he
  trimmed w hw ht := (hs.trimmed w hw ht).imp fun h hh => ⟨he.horizon h hh.1, hh.2⟩
  overInsert w hw := (hs.overInsert w hw).mono he
  follows := hs.follows.imp fun hf => hf.mono he

end SlotInv

/-- The stamp of a write by the running statement of `x`. -/
def stampOf (x : ℕ) (c : Client) : Stamp := ⟨x, c.handle.writeXid, c.handle.currentCommand⟩

theorem held_stampOf (hc : t.clients.lookup x = some c) : Held t (stampOf x c) :=
  ⟨c, hc, own_writeXid.mem, le_rfl⟩

theorem alive_stampOf (hc : t.clients.lookup x = some c) (hp : c.phase = .running)
    (change : Change) : Alive t { stamp := stampOf x c, change := change } := by
  refine ⟨c, hc, ?_⟩
  rw [Holds, hp]
  exact own_writeXid

namespace SlotInv

section Writer

variable (hs : SlotInv t sl) (hi : Timeline.Inv t) (hc : t.clients.lookup x = some c)
  (hp : c.phase = .running) (hfresh : Untouched sl x c.handle.currentCommand)

include hs hi hc hp hfresh

omit hi hfresh in
/-- What a push keeps whatever the write is. -/
theorem pushed (r' : Row) (change : Change)
    (hins : sees t x c.handle.currentCommand sl.inserted = true) :
    let sl' := sl.push r' { stamp := stampOf x c, change := change }
    (∀ u ∈ sl'.writes, Held t u.stamp) ∧ (∀ u ∈ sl'.live, Alive t u) ∧
      (∀ u ∈ sl'.writes, u.undone = true → Gone t u.stamp) ∧
      (∀ u ∈ sl'.live, u.trimmed = true → ∃ h, Horizon t h ∧ u.stamp.xid < h) ∧
      ∀ u ∈ sl'.live, Follows t u.stamp sl.inserted := by
  refine ⟨fun u hu => ?_, fun u hu => ?_, fun u hu hun => ?_, fun u hu ht => ?_, fun u hu => ?_⟩ <;>
    rcases mem_cons.1 hu with rfl | hu
  · exact held_stampOf hc
  · exact hs.held u hu
  · exact alive_stampOf hc hp change
  · exact hs.alive u hu
  · cases hun
  · exact hs.gone u hu hun
  · cases ht
  · exact hs.trimmed u hu ht
  · exact follows_of_sees hc hs.heldInsert hins
  · exact hs.overInsert u hu

variable {predicate : Payload → Bool} {r' : Row}

theorem update {form : UpdateForm} {col : Column} {d : Int32}
    (hwalk : sl.row.walks c.handle.snapshot t.mgr.status)
    (h : sl.row.update form c.handle.snapshot t.mgr.status predicate col d
      c.handle.writeXid c.handle.currentCommand = .ok (some r')) :
    SlotInv t (sl.push r'
      { stamp := stampOf x c
        change := .update sl.row.payload (updated sl.row col d)
          (form.inverse sl.row.payload col d) }) := by
  rw [← snapshotAt_current (hi.client x c hc).command] at h hwalk
  obtain ⟨hadm, new, hnew, rfl⟩ := Row.update_ok h
  obtain ⟨hins, hall⟩ := hs.writable hi hc hp hfresh hwalk (hs.admits_isVisible hi hc hfresh hadm)
  rw [show updated sl.row col d = new by rw [updated, hnew, Option.getD_some]]
  obtain ⟨hheld, halive, hgone, htrim, hover⟩ := hs.pushed hc hp _ _ hins
  refine ⟨hs.heldInsert, hheld, halive, hgone, htrim, ?_, hs.xmin, hs.cmin, hs.frozen,
    fun _ => ⟨_, rfl, rfl, rfl⟩, nofun, fun _ => .inl rfl, hover, ?_⟩
  · exact congrArg (_ :: ·) hs.undo
  · refine pairwise_cons.2 ⟨fun u hu => ?_, hs.follows⟩
    exact follows_of_sees hc (hs.heldLive (mem_updates.1 hu).1) (hall u hu)

theorem delete (hwalk : sl.row.walks c.handle.snapshot t.mgr.status)
    (h : sl.row.delete c.handle.snapshot t.mgr.status predicate c.handle.writeXid
      c.handle.currentCommand = .ok (some r')) :
    SlotInv t (sl.push r' { stamp := stampOf x c, change := .delete }) := by
  rw [← snapshotAt_current (hi.client x c hc).command] at h hwalk
  obtain ⟨hadm, -, rfl⟩ := Row.delete_ok h
  obtain ⟨hins, -⟩ := hs.writable hi hc hp hfresh hwalk hadm
  obtain ⟨hheld, halive, hgone, htrim, hover⟩ := hs.pushed hc hp _ _ hins
  let mask := (sl.row.header.stampDelete c.handle.writeXid c.handle.currentCommand).infomask
  have hmask : mask.updatedInPlace = false ∧
      (mask.inplaceHistory = true ↔ sl.row.header.infomask.updatedInPlace = true ∨
        sl.row.header.infomask.inplaceHistory = true) ∧
      mask.frozen = sl.row.header.infomask.frozen := by
    unfold mask TupleHeader.stampDelete
    cases hu : sl.row.header.infomask.updatedInPlace <;> simp [hu]
  exact ⟨hs.heldInsert, hheld, halive, hgone, htrim, hs.undo, hs.xmin, hs.cmin,
    hmask.2.2.trans hs.frozen, fun hu => absurd (hmask.1.symm.trans hu) nofun,
    fun _ _ => ⟨_, mem_cons_self, rfl, rfl, rfl⟩, fun hne => .inr (hmask.2.1.2 (hs.history hne)),
    hover, hs.follows⟩

end Writer

end SlotInv

/-! ## Undo visits -/

/-- The writes of a list that are not marked, after some more are. -/
theorem filter_mark (p : Write → Bool) (ws : List Write) :
    (ws.map fun w => if p w then { w with undone := true } else w).filter (!·.undone) =
      (ws.filter (!·.undone)).filter fun w => !p w := by
  induction ws with
  | nil => rfl
  | cons w ws ih =>
    rw [map_cons, filter_cons, filter_cons, ih]
    cases hp : p w <;> cases hu : w.undone <;> simp [hp, hu]

/-- A mark changes nothing but the mark. -/
theorem mem_mark {p : Write → Bool} {ws : List Write}
    (hw : w ∈ ws.map fun w => if p w then { w with undone := true } else w) :
    ∃ w₀ ∈ ws, w.stamp = w₀.stamp ∧ (w.undone = true → w₀.undone = true ∨ p w₀ = true) := by
  obtain ⟨w₀, hw₀, rfl⟩ := mem_map.1 hw
  refine ⟨w₀, hw₀, ?_⟩
  split_ifs with hp
  · exact ⟨rfl, fun _ => .inr hp⟩
  · exact ⟨rfl, .inl⟩

namespace SlotInv

theorem live_undoStamps (sl : Slot) (z : ℕ) : (sl.undoStamps z).live =
    sl.live.filter fun w => !decide (w.stamp.xid = z ∧ w.change = .delete) :=
  filter_mark _ sl.writes

/-- Updates are not concerned by a visit for delete stamps. -/
theorem updates_undoStamps (sl : Slot) (z : ℕ) : (sl.undoStamps z).updates = sl.updates := by
  unfold Slot.updates
  rw [live_undoStamps, filter_filter]
  refine filter_congr fun w _ => ?_
  cases hu : w.isUpdate with
  | false => rfl
  | true =>
    obtain ⟨old, new, inverse, hch⟩ := isUpdate_iff.1 hu
    simp [hch]

/-- A visit for the updates of `z` to a row that has some. -/
theorem undoUpdates_of_touched (h : sl.touched z = true) (todo : List (ℕ × Visit)) :
    sl.undoUpdates z todo =
      { sl with
        row := { header := sl.row.header.clearUpdate !(sl.row.undo.filter (·.writerXid ≠ z)).isEmpty
                 payload := (sl.row.undo.filter (·.writerXid = z)).foldl
                   (fun p u => Row.restore p u.inverse) sl.row.payload
                 undo := sl.row.undo.filter (·.writerXid ≠ z) }
        writes := sl.markUndone fun w =>
          w.stamp.xid = z ∨ w.change = .delete ∧ (w.stamp.xid, .stamps) ∈ todo } := by
  have hmine : (sl.row.undo.filter (·.writerXid = z)).isEmpty = false := by
    rw [isEmpty_eq_false_iff, Ne, filter_eq_nil_iff]
    obtain ⟨r, hr, hz⟩ := any_eq_true.1 h
    exact fun h => h r hr hz
  unfold Slot.undoUpdates Row.rollbackUpdates
  dsimp only
  rw [if_pos h, hmine]
  rfl

/-- A visit for the updates of `z` to a row that has none. -/
theorem undoUpdates_of_untouched (h : ¬ sl.touched z = true) (todo : List (ℕ × Visit)) :
    sl.undoUpdates z todo = sl := by
  have hmine : (sl.row.undo.filter (·.writerXid = z)).isEmpty = true := by
    rw [List.isEmpty_iff, List.filter_eq_nil_iff]
    exact fun r hr hz => h (any_eq_true.2 ⟨r, hr, hz⟩)
  unfold Slot.undoUpdates Row.rollbackUpdates
  dsimp only
  rw [if_neg h, if_pos hmine]

theorem live_undoUpdates (h : sl.touched z = true) (todo : List (ℕ × Visit)) :
    (sl.undoUpdates z todo).live = sl.live.filter fun w =>
      !decide (w.stamp.xid = z ∨ w.change = .delete ∧ (w.stamp.xid, .stamps) ∈ todo) := by
  rw [undoUpdates_of_touched h]
  exact filter_mark _ sl.writes

theorem updates_undoUpdates (h : sl.touched z = true) (todo : List (ℕ × Visit)) :
    (sl.undoUpdates z todo).updates = sl.updates.filter (·.stamp.xid ≠ z) := by
  unfold Slot.updates
  rw [live_undoUpdates h, filter_filter, filter_filter]
  refine filter_congr fun w _ => ?_
  cases hu : w.isUpdate with
  | false => simp
  | true =>
    obtain ⟨old, new, inverse, hch⟩ := isUpdate_iff.1 hu
    simp [hch]

theorem live_trim (sl : Slot) (h : ℕ) : (sl.trim h).live = sl.live.map (Write.trimBelow h) := by
  unfold Slot.live Slot.trim
  dsimp only
  rw [filter_map]
  rfl

theorem updates_trim (sl : Slot) (h : ℕ) :
    (sl.trim h).updates = sl.updates.map (Write.trimBelow h) := by
  unfold Slot.updates
  rw [live_trim, filter_map]
  rfl

section

variable (hs : SlotInv t sl)
include hs

/-- What stays true of the writes when some of them are marked as undone. -/
theorem marked (he : Evolves t t') {p : Write → Bool} (r' : Row)
    (hp : ∀ w ∈ sl.writes, p w = true → Gone t' w.stamp)
    (hl : ∀ w ∈ sl.live, p w = false → Alive t' w) :
    let sl' : Slot := { sl with row := r', writes := sl.markUndone p }
    sl'.live = sl.live.filter (fun w => !p w) ∧ (∀ w ∈ sl'.writes, Held t' w.stamp) ∧
      (∀ w ∈ sl'.live, Alive t' w) ∧ (∀ w ∈ sl'.writes, w.undone = true → Gone t' w.stamp) ∧
      (∀ w ∈ sl'.live, w.trimmed = true → ∃ h, Horizon t' h ∧ w.stamp.xid < h) ∧
      (∀ w ∈ sl'.live, Follows t' w.stamp sl.inserted) ∧
      sl'.updates.Pairwise fun a b => Follows t' a.stamp b.stamp := by
  intro sl'
  have hlive : sl'.live = sl.live.filter fun w => !p w := filter_mark p sl.writes
  have hmem : ∀ w ∈ sl'.live, w ∈ sl.live ∧ p w = false := fun w hw => by
    rw [hlive, mem_filter, Bool.not_eq_true'] at hw
    exact hw
  refine ⟨hlive, fun w hw => ?_, fun w hw => ?_, fun w hw hu => ?_, fun w hw ht => ?_,
    fun w hw => ?_, ?_⟩
  · obtain ⟨w₀, hw₀, hst, -⟩ := mem_mark hw
    rw [hst]
    exact (hs.held w₀ hw₀).mono he
  · exact hl w (hmem w hw).1 (hmem w hw).2
  · obtain ⟨w₀, hw₀, hst, hun⟩ := mem_mark hw
    rw [hst]
    rcases hun hu with hu | hu
    · exact (hs.gone w₀ hw₀ hu).mono he
    · exact hp w₀ hw₀ hu
  · exact (hs.trimmed w (hmem w hw).1 ht).imp fun h hh => ⟨he.horizon h hh.1, hh.2⟩
  · exact (hs.overInsert w (hmem w hw).1).mono he
  · rw [Slot.updates, hlive]
    exact (hs.follows.imp fun hf => hf.mono he).sublist (filter_sublist.filter _)

/-- **A visit for the delete stamps of `z` keeps the invariant.** -/
theorem undoStamps (he : Evolves t t')
    (hg : ∀ w ∈ sl.writes, w.stamp.xid = z → w.change = .delete → Gone t' w.stamp)
    (hl : ∀ w ∈ sl.live, ¬ (w.stamp.xid = z ∧ w.change = .delete) → Alive t' w) :
    SlotInv t' (sl.undoStamps z) := by
  obtain ⟨hlive, hheld, halive, hgone, htrim, hover, hfol⟩ := hs.marked he
    (p := fun w => w.stamp.xid = z ∧ w.change = .delete) (sl.row.rollbackStamps z sl.tid)
    (fun w hw h => hg w hw (of_decide_eq_true h).1 (of_decide_eq_true h).2)
    (fun w hw h => hl w hw (of_decide_eq_false h))
  have hupd := updates_undoStamps sl z
  unfold Slot.undoStamps at hupd ⊢
  by_cases hkeep : sl.row.header.xmax ≠ z ∨ sl.row.header.infomask.updatedInPlace = true
  · rw [Row.rollbackStamps, if_pos hkeep] at *
    refine ⟨hs.heldInsert.mono he, hheld, halive, hgone, htrim, ?_, hs.xmin, hs.cmin, hs.frozen,
      fun hu => ?_, fun hu hx => ?_, hs.history, hover, hfol⟩
    · rw [hupd]
      exact hs.undo
    · rw [hupd]
      exact hs.inPlace hu
    · obtain ⟨w, hw, hch, hxmax, hcmax⟩ := hs.classical hu hx
      refine ⟨w, ?_, hch, hxmax, hcmax⟩
      have hne : sl.row.header.xmax ≠ z := hkeep.resolve_right fun h =>
        absurd (hu.symm.trans h) nofun
      rw [hlive, mem_filter]
      exact ⟨hw, by simp [← hxmax, hne]⟩
  · rw [Row.rollbackStamps, if_neg hkeep] at *
    refine ⟨hs.heldInsert.mono he, hheld, halive, hgone, htrim, ?_, hs.xmin, hs.cmin, hs.frozen,
      nofun, fun _ hx => absurd rfl hx, fun hne => .inr ?_, hover, hfol⟩
    · rw [hupd]
      exact hs.undo
    · exact (hs.history hne).resolve_left fun hu => hkeep (.inr hu)

theorem touched_iff :
    sl.touched z = true ↔ ∃ w ∈ sl.updates, w.stamp.xid = z ∧ w.trimmed = false := by
  rw [Slot.touched, hs.undo, any_eq_true]
  constructor
  · rintro ⟨r, hr, hz⟩
    obtain ⟨w, hw, hwr⟩ := mem_filterMap.1 hr
    obtain ⟨ht, hx, -⟩ := record?_eq_some hwr
    exact ⟨w, hw, hx ▸ of_decide_eq_true hz, ht⟩
  · rintro ⟨w, hw, hz, ht⟩
    obtain ⟨old, new, inverse, hch⟩ := isUpdate_iff.1 (mem_updates.1 hw).2
    exact ⟨_, mem_filterMap.2 ⟨w, hw, record?_of_update hch ht⟩, decide_eq_true hz⟩

/-- **A visit for the updates of `z` keeps the invariant.** -/
theorem undoUpdates (he : Evolves t t') {todo : List (ℕ × Visit)}
    (hg : ∀ w ∈ sl.writes, w.stamp.xid = z ∨ w.change = .delete ∧ (w.stamp.xid, .stamps) ∈ todo →
      Gone t' w.stamp) (hl : ∀ w ∈ sl.live, ¬ (w.stamp.xid = z ∧ w.isUpdate = true) → Alive t' w)
    (hkeep : ∀ w ∈ sl.updates, w.stamp.xid = z → w.trimmed = false) :
    SlotInv t' (sl.undoUpdates z todo) := by
  by_cases htouch : sl.touched z = true
  · obtain ⟨-, hheld, halive, hgone, htrim, hover, hfol⟩ := hs.marked he
      (p := fun w => w.stamp.xid = z ∨ w.change = .delete ∧ (w.stamp.xid, .stamps) ∈ todo)
      (sl.undoUpdates z todo).row (fun w hw h => hg w hw (of_decide_eq_true h))
      (fun w hw h => hl w hw fun h' => of_decide_eq_false h (.inl h'.1))
    have hupd := updates_undoUpdates htouch todo
    rw [undoUpdates_of_touched htouch todo] at hheld halive hgone htrim hover hfol hupd ⊢
    refine ⟨hs.heldInsert.mono he, hheld, halive, hgone, htrim, ?_, hs.xmin, hs.cmin, hs.frozen,
      nofun, fun _ hx => absurd rfl hx, fun hne => .inr ?_, hover, hfol⟩
    · rw [hupd, hs.undo]
      exact filter_records (fun y => y ≠ z) sl.updates
    · show (_ || !(sl.row.undo.filter (·.writerXid ≠ z)).isEmpty) = true
      rw [isEmpty_eq_false_iff.2 hne, Bool.not_false, Bool.or_true]
  · rw [undoUpdates_of_untouched htouch]
    refine hs.mono he fun w hw => hl w hw fun h => htouch ?_
    have hw' := mem_updates.2 ⟨hw, h.2⟩
    exact hs.touched_iff.2 ⟨w, hw', h.1, hkeep w hw' h.1⟩

/-- **A trim of the undo log keeps the invariant.** -/
theorem trim {h : ℕ} (hh : Horizon t h) : SlotInv t (sl.trim h) := by
  have hold : ∀ w ∈ (sl.trim h).live, ∃ w₀ ∈ sl.live, w = w₀.trimBelow h := fun w hw => by
    rw [live_trim] at hw
    obtain ⟨w₀, hw₀, rfl⟩ := mem_map.1 hw
    exact ⟨w₀, hw₀, rfl⟩
  refine ⟨hs.heldInsert, fun w hw => ?_, fun w hw => ?_, fun w hw hu => ?_, fun w hw ht => ?_, ?_,
    hs.xmin, hs.cmin, hs.frozen, fun hu => ?_, fun hu hx => ?_, fun hne => ?_, fun w hw => ?_, ?_⟩
  · obtain ⟨w₀, hw₀, rfl⟩ := mem_map.1 hw
    exact hs.held w₀ hw₀
  · obtain ⟨w₀, hw₀, rfl⟩ := hold w hw
    exact hs.alive w₀ hw₀
  · obtain ⟨w₀, hw₀, rfl⟩ := mem_map.1 hw
    exact hs.gone w₀ hw₀ hu
  · obtain ⟨w₀, hw₀, rfl⟩ := hold w hw
    rcases (Bool.or_eq_true _ _).mp ht with ht | hlt
    · exact hs.trimmed w₀ hw₀ ht
    · exact ⟨h, hh, of_decide_eq_true hlt⟩
  · rw [updates_trim, filterMap_record_trimBelow, ← hs.undo]
    rfl
  · obtain ⟨w, hw, hxmax, hcmax⟩ := hs.inPlace hu
    refine ⟨w.trimBelow h, ?_, hxmax, hcmax⟩
    rw [updates_trim, head?_map, hw]
    rfl
  · obtain ⟨w, hw, hch, hxmax, hcmax⟩ := hs.classical hu hx
    refine ⟨w.trimBelow h, ?_, hch, hxmax, hcmax⟩
    rw [live_trim]
    exact mem_map_of_mem hw
  · refine hs.history fun hnil => hne ?_
    show sl.row.undo.filter _ = []
    rw [hnil]
    rfl
  · obtain ⟨w₀, hw₀, rfl⟩ := hold w hw
    exact hs.overInsert w₀ hw₀
  · rw [updates_trim, pairwise_map]
    exact hs.follows

end

end SlotInv

/-! ## Inserts -/

theorem slotInv_insert (hc : t.clients.lookup x = some c) (tid : TupleId)
    (payload : Payload) :
    SlotInv t
      { tid := tid
        row := { header := .fresh c.handle.writeXid c.handle.currentCommand tid
                 payload := payload
                 undo := [] }
        inserted := stampOf x c
        initial := payload
        writes := [] } where
  heldInsert := held_stampOf hc
  held := nofun
  alive := nofun
  gone := nofun
  trimmed := nofun
  undo := rfl
  xmin := rfl
  cmin := rfl
  frozen := rfl
  inPlace := nofun
  classical _ h := absurd rfl h
  history h := absurd rfl h
  overInsert := nofun
  follows := List.Pairwise.nil

/-! ## The chain of a slot -/

namespace Chain

variable {command xid : ℕ} {oracle : Oracle} {predicate : Payload → Bool} {r' : Row} {s : Snapshot}
  {st : Stamp}

theorem update (h : Chain sl) {form : UpdateForm} {col : Column} {d : Int32}
    (hr : sl.row.update form s oracle predicate col d xid command = .ok (some r')) :
    Chain (sl.push r'
      { stamp := st
        change := .update sl.row.payload (updated sl.row col d)
          (form.inverse sl.row.payload col d) }) := by
  obtain ⟨-, new, hnew, rfl⟩ := Row.update_ok hr
  rw [show updated sl.row col d = new by rw [updated, hnew, Option.getD_some]]
  exact ⟨⟨⟨h.payload, reverses_inverse hnew⟩, h.chained⟩, rfl⟩

theorem delete (h : Chain sl) (hr : sl.row.delete s oracle predicate xid command = .ok (some r')) :
    Chain (sl.push r' { stamp := st, change := .delete }) := by
  obtain ⟨-, -, rfl⟩ := Row.delete_ok hr
  exact ⟨h.chained, h.payload⟩

theorem undoStamps (h : Chain sl) : Chain (sl.undoStamps z) := by
  have hrow : (sl.undoStamps z).row.payload = sl.row.payload := by
    unfold Slot.undoStamps Row.rollbackStamps
    split_ifs <;> rfl
  refine ⟨?_, ?_⟩
  · rw [SlotInv.updates_undoStamps]
    exact h.chained
  · rw [SlotInv.updates_undoStamps, hrow]
    exact h.payload

/-- A visit for the updates of `z` keeps the chain if they are the newest ones. -/
theorem undoUpdates (h : Chain sl) (hs : SlotInv t sl) {todo : List (ℕ × Visit)}
    (hnew : sl.updates.Pairwise fun a b => b.stamp.xid = z → a.stamp.xid = z)
    (hkeep : ∀ w ∈ sl.updates, w.stamp.xid = z → w.trimmed = false) :
    Chain (sl.undoUpdates z todo) := by
  by_cases htouch : sl.touched z = true
  · refine ⟨?_, ?_⟩
    · rw [SlotInv.updates_undoUpdates htouch]
      exact h.chained.filter_ne hnew
    · rw [SlotInv.updates_undoUpdates htouch, SlotInv.undoUpdates_of_touched htouch]
      dsimp only
      rw [h.payload, hs.undo, filter_records (fun y => y = z)]
      exact foldl_restore_chain (fun w hw => (mem_updates.1 hw).2) h.chained hnew hkeep
  · rw [SlotInv.undoUpdates_of_untouched htouch]
    exact h

theorem trim (h : Chain sl) (oldest : ℕ) : Chain (sl.trim oldest) := by
  refine ⟨?_, ?_⟩
  · rw [SlotInv.updates_trim]
    exact h.chained.trimBelow oldest
  · rw [SlotInv.updates_trim, valueOf_trimBelow]
    exact h.payload

end Chain

end UltraSql.Heap
