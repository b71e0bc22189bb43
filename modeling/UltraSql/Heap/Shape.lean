import UltraSql.Heap.PageInv

/-!
# Deletes

`SlotInv` leaves open what is under a delete. In the histories of this module a delete is the newest
live write of its slot and the header names it. A writer that acts on a row sees all of it then, and
a visit that clears the header takes the delete out as well.

**Theorem (`Inv.shape_step`).** Every step keeps this, as long as no writer acts on a row with a
delete that it does not see, and a visit that undoes updates does not find a delete over them that
stays.
-/

namespace UltraSql.Heap

open Timeline (Visit Client)

variable {s s' : State} {t t' : Timeline.State} {a : Act} {x z k : ℕ} {c : Client} {w : Write}
  {sl sl' : Slot}

/-- A delete is the newest write and in the header, and every write has seen the older ones. -/
structure Shape (t : Timeline.State) (sl : Slot) : Prop where
  follows : sl.live.Pairwise fun a b => Follows t a.stamp b.stamp
  under : ∀ w ∈ sl.live.tail, w.isUpdate = true
  delete : ∀ w ∈ sl.live.head?, w.change = .delete →
    sl.row.header.infomask.updatedInPlace = false ∧ sl.row.header.xmax = w.stamp.xid ∧
      sl.row.header.cmax = w.stamp.command

namespace Shape

theorem mono (h : Shape t sl) (he : Evolves t t') : Shape t' sl :=
  ⟨h.follows.imp fun hf => hf.mono he, h.under, h.delete⟩

/-- Without a delete there are only updates. -/
theorem live_eq_updates (h : ∀ w ∈ sl.live, w.change ≠ .delete) : sl.updates = sl.live := by
  refine List.filter_eq_self.2 fun w hw => ?_
  rw [← Bool.not_eq_false, not_isUpdate_iff]
  exact h w hw

theorem head_of_delete (h : Shape t sl) (hw : w ∈ sl.live) (hdel : w.change = .delete) :
    sl.live.head? = some w := by
  have hunder := h.under
  cases hl : sl.live with
  | nil =>
    rw [hl] at hw
    cases hw
  | cons u rest =>
    rw [hl] at hw hunder
    rcases List.mem_cons.1 hw with rfl | hw
    · rfl
    · exact absurd (hunder w hw) (by rw [not_isUpdate_iff.2 hdel]; nofun)

section Writer

variable (h : Shape t sl) (hs : SlotInv t sl) (hi : Timeline.Inv t)
  (hc : t.clients.lookup x = some c) (hp : c.phase = .running) (hfresh : Untouched sl x k)
  (hwalk : sl.row.walks (snapshotAt c k) t.mgr.status)
  (hadm : Admits sl.row (isVisible sl.row.header (snapshotAt c k) t.mgr.status) (snapshotAt c k)
    t.mgr.status)
  (hprev : sl.last.owner = x ∨ sees t x k sl.last = true)

include h hs hi hc hp hfresh hwalk hadm hprev

/-- There is no delete under a write. -/
theorem no_delete : ∀ w ∈ sl.live, w.change ≠ .delete := by
  intro w hw hdel
  have hhead := h.head_of_delete hw hdel
  obtain ⟨hu, hxmax, hcmax⟩ := h.delete w hhead hdel
  have hlast : sl.last = w.stamp := by
    rw [Slot.last, hhead]
    rfl
  have hseen : sees t x k w.stamp = true := by
    rw [hlast] at hprev
    refine hprev.elim (fun ho => ?_) id
    have hown := (hs.alive w hw).own (ho ▸ hc) (.inl hp)
    exact (sees_own hc ho).2 ⟨hown, hfresh.write w (mem_live.1 hw).1 ho⟩
  have hins := (hs.writable hi hc hp hfresh hwalk hadm).1
  rw [hs.isVisible_deleted hi hc hp hins hu hw hxmax hcmax, if_pos hseen] at hadm
  split_ifs at hadm <;> rcases hadm with hadm | ⟨hadm, -⟩ <;> cases hadm

/-- A writer sees all that it writes over. -/
theorem sees_live : ∀ w ∈ sl.live, sees t x k w.stamp = true := by
  rw [← live_eq_updates (h.no_delete hs hi hc hp hfresh hwalk hadm hprev)]
  exact (hs.writable hi hc hp hfresh hwalk hadm).2

theorem push {r : Row} {ch : Change}
    (hdel : ch = .delete → r.header.infomask.updatedInPlace = false ∧ r.header.xmax = z ∧
      r.header.cmax = k) : Shape t (sl.push r { stamp := ⟨x, z, k⟩, change := ch }) := by
  have hseen := h.sees_live hs hi hc hp hfresh hwalk hadm hprev
  have hnone := h.no_delete hs hi hc hp hfresh hwalk hadm hprev
  refine ⟨List.pairwise_cons.2 ⟨fun u hu => ?_, h.follows⟩, fun u hu => ?_, fun u hu hch => ?_⟩
  · exact follows_of_sees hc (hs.heldLive hu) (hseen u hu)
  · rw [← Bool.not_eq_false, not_isUpdate_iff]
    exact hnone u hu
  · cases hu
    exact hdel hch

end Writer

section

variable (h : Shape t sl) (he : Evolves t t')
include h he

theorem filter {p : Write → Bool} (hlive : sl'.live = sl.live.filter p)
    (hdel : ∀ w, sl.live.head? = some w → p w = true → w.change = .delete →
      sl'.row.header = sl.row.header) : Shape t' sl' := by
  have hsub : sl'.live.Sublist sl.live := hlive ▸ List.filter_sublist
  refine ⟨(h.follows.imp fun hf => hf.mono he).sublist hsub,
    fun w hw => h.under w (hsub.tail.subset hw), fun w hw hch => ?_⟩
  have hmem : w ∈ sl'.live := List.mem_of_mem_head? hw
  have hhead := h.head_of_delete (hsub.subset hmem) hch
  rw [hlive] at hmem
  rw [hdel w hhead (List.mem_filter.1 hmem).2 hch]
  exact h.delete w hhead hch

theorem undoStamps : Shape t' (sl.undoStamps z) := by
  refine h.filter he (SlotInv.live_undoStamps sl z) fun w hhead hw hdel => ?_
  have hz : w.stamp.xid ≠ z := fun hz => by simp [hz, hdel] at hw
  have hrow : (sl.undoStamps z).row = sl.row := if_pos (.inl ((h.delete w hhead hdel).2.1 ▸ hz))
  rw [hrow]

theorem undoUpdates {todo : List (ℕ × Visit)}
    (hgo : sl.touched z = true → sl.row.header.infomask.updatedInPlace = false →
      sl.row.header.xmax ≠ 0 →
      sl.row.header.xmax = z ∨ (sl.row.header.xmax, Visit.stamps) ∈ todo)
    (hne : ∀ w ∈ sl.live, w.stamp.xid ≠ 0) : Shape t' (sl.undoUpdates z todo) := by
  by_cases htouch : sl.touched z = true
  · refine h.filter he (SlotInv.live_undoUpdates htouch todo) fun w hhead hw hdel => ?_
    -- a delete would have been taken out
    obtain ⟨hu, hxmax, -⟩ := h.delete w hhead hdel
    rcases hgo htouch hu (hxmax ▸ hne w (List.mem_of_mem_head? hhead)) with hz | htodo
    · rw [hxmax] at hz
      simp [hz] at hw
    · rw [hxmax] at htodo
      simp [hdel, htodo] at hw
  · rw [SlotInv.undoUpdates_of_untouched htouch]
    exact h.mono he

end

theorem trim (h : Shape t sl) (oldest : ℕ) : Shape t (sl.trim oldest) := by
  refine ⟨?_, fun w hw => ?_, fun w hw hdel => ?_⟩
  · rw [SlotInv.live_trim, List.pairwise_map]
    exact h.follows
  · rw [SlotInv.live_trim, ← List.map_tail] at hw
    obtain ⟨w₀, hw₀, rfl⟩ := List.mem_map.1 hw
    exact h.under w₀ hw₀
  · rw [SlotInv.live_trim, List.head?_map] at hw
    obtain ⟨w₀, hw₀, rfl⟩ := Option.map_eq_some_iff.1 hw
    exact h.delete w₀ hw₀ hdel

end Shape

/-! ## The conditions -/

/-- The statement changes the row. -/
def affects : Except WriteError (Option Row) → Bool
  | .ok (some _) => true
  | _ => false

/-- What the visit of a statement to a row results in. -/
def State.attempt (s : State) : Act → Client → Slot → Except WriteError (Option Row)
  | .update _ _ form predicate col delta, c, sl =>
    sl.row.update form c.handle.snapshot s.txn.mgr.status predicate col delta c.handle.writeXid
      c.handle.currentCommand
  | .delete _ _ predicate, c, sl =>
    sl.row.delete c.handle.snapshot s.txn.mgr.status predicate c.handle.writeXid
      c.handle.currentCommand
  | _, _, _ => .ok none

/-- A writer acts only if it is the previous writer of the row or sees it. -/
def ObeysRule (s : State) (a : Act) : Prop :=
  match a with
  | .update x i .. | .delete x i _ =>
    ∀ c ∈ s.running x, ∀ sl ∈ s.slots[i]?, affects (s.attempt a c sl) = true →
      sl.last.owner = x ∨ sees s.txn x c.handle.currentCommand sl.last = true
  | _ => True

instance : DecidableRel ObeysRule := fun s a =>
  match a with
  | .update .. | .delete .. => by delta ObeysRule; infer_instance
  | .txn _ | .insert .. | .enter .. | .visit _ | .sample _ | .trim _ | .mark _ | .markElsewhere =>
    isTrue trivial

/-- A delete over updates of `z` is one of `z` or of an XID whose deletes are still to be undone. -/
def Row.deleteGoes (r : Row) (z : ℕ) (todo : List (ℕ × Visit)) : Prop :=
  (r.undo.any fun u => u.writerXid = z) = true → r.header.infomask.updatedInPlace = false →
    r.header.xmax ≠ 0 → r.header.xmax = z ∨ (r.header.xmax, Visit.stamps) ∈ todo

instance (r : Row) (z : ℕ) (todo : List (ℕ × Visit)) : Decidable (r.deleteGoes z todo) :=
  inferInstanceAs (Decidable (_ → _))

/-- A visit that undoes the updates of an XID finds nothing over them that stays. -/
def UndoesDeletes (s : State) (a : Act) : Prop :=
  match a with
  | .visit x =>
    match s.txn.nextVisit x with
    | some ((z, .updates), t) =>
      ∀ c ∈ t.clients.lookup x, ∀ sl ∈ s.slots, sl.row.deleteGoes z c.phase.todo
    | _ => True
  | _ => True

instance : DecidableRel UndoesDeletes := fun s a =>
  match a with
  | .visit x => by
    delta UndoesDeletes
    dsimp only
    rcases s.txn.nextVisit x with _ | ⟨⟨z, _ | _⟩, t⟩ <;> infer_instance
  | .txn _ | .insert .. | .enter .. | .update .. | .delete .. | .sample _ | .trim _ | .mark _
  | .markElsewhere => isTrue trivial

/-- **Every step keeps the shape of the slots.** -/
theorem Inv.shape_step (hi : Inv s) (ht : Timed s a) (hsh : ∀ sl ∈ s.slots, Shape s.txn sl)
    (hwalk : WalksUndo s a) (hrule : ObeysRule s a) (hgo : UndoesDeletes s a)
    (h : Heap.step s a = some s') : ∀ sl ∈ s'.slots, Shape s'.txn sl := by
  intro sl' hsl'
  obtain ⟨o, hold, hst⟩ := slotStep h hsl'
  generalize s'.txn = t' at hst
  cases hst with
  | time hb => exact (hsh sl' (hold _ rfl)).mono (evolves_step hi.txn ht hb)
  | keep => exact hsh sl' (hold _ rfl)
  | insert => exact ⟨List.Pairwise.nil, nofun, nofun⟩
  | @update x i form predicate col delta c sl row hc hp hsl hfresh hrow =>
    have hs := hi.slot sl (hold _ rfl)
    have hcur := snapshotAt_current (hi.txn.client x c hc).command
    have hrun := running_eq_some.2 ⟨hc, hp⟩
    have hprev := hrule c hrun sl hsl (by rw [State.attempt, hrow]; rfl)
    have hw := hwalk c hrun sl hsl
    rw [← hcur] at hrow hw
    have hadm := hs.admits_isVisible hi.txn hc hfresh (Row.update_ok hrow).1
    exact (hsh sl (hold _ rfl)).push hs hi.txn hc hp hfresh hw hadm hprev nofun
  | @delete x i predicate c sl row hc hp hsl hfresh hrow =>
    have hs := hi.slot sl (hold _ rfl)
    have hcur := snapshotAt_current (hi.txn.client x c hc).command
    have hrun := running_eq_some.2 ⟨hc, hp⟩
    have hprev := hrule c hrun sl hsl (by rw [State.attempt, hrow]; rfl)
    have hw := hwalk c hrun sl hsl
    rw [← hcur] at hrow hw
    obtain ⟨hadm, -, rfl⟩ := Row.delete_ok hrow
    refine (hsh sl (hold _ rfl)).push hs hi.txn hc hp hfresh hw hadm hprev fun _ =>
      ⟨?_, rfl, rfl⟩
    unfold TupleHeader.stampDelete
    cases hu : sl.row.header.infomask.updatedInPlace <;> simp [hu]
  | @visit x c u p todo sl hc hp hnext =>
    have hs := hi.slot sl (hold _ rfl)
    have hev := visit_evolves hc hp
    obtain ⟨z, v⟩ := u
    cases v with
    | stamps => exact (hsh sl (hold _ rfl)).undoStamps hev
    | updates =>
      simp only [UndoesDeletes, hnext] at hgo
      have hlook := Timeline.lookup_setClient s.txn x x { c with phase := p }
      rw [if_pos rfl] at hlook
      have hdel := hgo _ hlook sl (hold _ rfl)
      rw [show ({ c with phase := p } : Client).phase.todo = todo from (todo_of_visit hp).1] at hdel
      exact (hsh sl (hold _ rfl)).undoUpdates hev hdel fun w hw => (hs.heldLive hw).ne_zero hi.txn
  | trim => exact (hsh _ (hold _ rfl)).trim _

/-- What holds of a page whose rollbacks undo the newest writes. -/
structure Orderly (s : State) : Prop where
  inv : Inv s
  chain : ∀ sl ∈ s.slots, Chain sl
  shape : ∀ sl ∈ s.slots, Shape s.txn sl

theorem orderly_init : Orderly {} := ⟨inv_init, nofun, nofun⟩

theorem Orderly.step (h : Orderly s) (ht : Timed s a) (hrule : ObeysRule s a)
    (hnew : UndoesNewest s a) (hgo : UndoesDeletes s a) (hstep : Heap.step s a = some s') :
    Orderly s' := by
  have hwalk := h.inv.walksUndo h.chain a
  exact ⟨h.inv.step ht hwalk hstep, h.inv.chain_step h.chain hnew hstep,
    h.inv.shape_step ht h.shape hwalk hrule hgo hstep⟩

end UltraSql.Heap
