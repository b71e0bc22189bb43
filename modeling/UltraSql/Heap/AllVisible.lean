import UltraSql.Heap.PageInv
import UltraSql.Heap.Scan

/-!
# The visibility map

Vacuum sets a page's bit in the visibility map after a look at the header of each tuple. A scan that
finds the bit set takes every normal slot with the bytes that are there, without a visibility check
and without the undo log.

The look accepts a tuple without `xmax`. Such a tuple may have in-place history: the undo of an
update clears `xmax`, and the records of older updates stay, also of one whose transaction is still
running. A statement clears the bits of the pages it changes, unless it was not given the map or the
relation had no entry there when the statement started.

**Theorem (`allVisibleRows_eq_reads`).** As long as vacuum does not meet such a tuple and sets no
bit of a page that such a statement is still to visit, a page whose bit is set reads the same on
both paths, from every snapshot.

**Counterexamples (`allVisible_of_running_update`, `statement_leaves_bit`).** The bit of a page is
set over an update of a transaction that has not ended.
-/

namespace UltraSql.Heap

open Option
open Timeline (Visit Client Horizon Turn)
open Savepoints (Own mem_txnXids)

def State.page (s : State) : Slots := s.slots.map fun sl => (sl.tid, some sl.row)

/-- `VisibleHeapWalker::try_next` over a page whose bit is set. -/
def allVisibleRows (slots : Slots) : List (TupleId × Payload) :=
  slots.filterMap fun (tid, r?) => r?.map fun r => (tid, r.payload)

variable {s s' : State} {t t' : Timeline.State} {a : Act} {x z k h : ℕ} {c : Client}
  {st st' : Stamp} {w : Write} {sl sl' : Slot}

/-! ## What every snapshot sees -/

/-- The write is committed, and every snapshot in use is later. -/
def Settled (t : Timeline.State) (st : Stamp) : Prop :=
  ∃ d e, t.clients.lookup st.owner = some d ∧ d.phase = .committed ∧ Own d.handle st.xid ∧
    t.ended st.owner = some e ∧
    ∀ x c, t.clients.lookup x = some c → c.phase.status = .inProgress → e < c.view

theorem open_of_turn {c c' : Client} (h : Turn c c') (hopen : c'.phase.status = .inProgress) :
    c.phase.status = .inProgress := by
  cases h with
  | stay hp => rwa [hp] at hopen
  | undo _ hp | rollback hp | commit hp | abort hp =>
    rw [hp]
    rfl

section

variable (hs : Settled t st) (hc : t.clients.lookup x = some c)
include hs hc

theorem Settled.owner_ne (hopen : c.phase.status = .inProgress) : st.owner ≠ x := by
  obtain ⟨d, e, hd, hcom, -⟩ := hs
  rintro rfl
  obtain rfl := mem_unique hc hd
  rw [hcom] at hopen
  cases hopen

theorem Settled.sees (hopen : c.phase.status = .inProgress) : sees t x k st = true := by
  have hne := hs.owner_ne hc hopen
  obtain ⟨d, e, hd, hcom, hown, he, hall⟩ := hs
  exact (sees_foreign hc hd hne).2 ⟨hcom, hown, e, he, hall x c hc hopen⟩

omit hc in
/-- **Time does not unsettle a write.** A new snapshot is later than every commit. -/
theorem Settled.step (hi : Timeline.Inv t) {b : Timeline.Act} (ht : Timeline.Timely t b = true)
    (hb : Timeline.step t b = some t') :
    Settled t' st := by
  have hev := evolves_step hi ht hb
  obtain ⟨d, e, hd, hcom, hown, he, hall⟩ := hs
  obtain ⟨d', hd', hm⟩ := hev.moves _ d hd
  refine ⟨d', e, hd', (hm.committed hcom).1, (hm.committed hcom).2 _ hown, hev.ended _ e he, ?_⟩
  intro x c' hc' hopen
  rcases hi.known_or_running hb hc' with ⟨c, hc⟩ | ⟨-, hview⟩
  · obtain ⟨c'', hc'', hl⟩ := hi.later ht hb hc
    obtain rfl := mem_unique hc' hc''
    exact (hall x c hc (open_of_turn hl.turn hopen)).trans_le hl.view
  · rw [hview]
    exact (hi.client _ d hd).past _ (hi.client _ d hd).self_mem e he

theorem Settled.visit {p : Timeline.Phase} (hst : p.status = c.phase.status)
    (hcom : c.phase ≠ .committed) : Settled (t.tick (t.setClient x { c with phase := p })) st := by
  obtain ⟨d, e, hd, hcom', hown, he, hall⟩ := hs
  have hlook : ∀ y, (t.tick (t.setClient x { c with phase := p })).clients.lookup y =
      if y = x then some { c with phase := p } else t.clients.lookup y := fun y =>
    Timeline.lookup_setClient t x y _
  refine ⟨d, e, ?_, hcom', hown, he, fun y c' hc' hopen => ?_⟩
  · rw [hlook, if_neg, hd]
    intro ho
    rw [ho, hc] at hd
    cases hd
    exact hcom hcom'
  · rw [hlook] at hc'
    split_ifs at hc' with hyx
    · cases hc'
      exact hall x c hc (hst ▸ hopen)
    · exact hall y c' hc' hopen

end

/-- What a settled write follows is settled. -/
theorem Settled.of_follows (hs : Settled t st) (hi : Timeline.Inv t) (hf : Follows t st w.stamp)
    (hw : Alive t w) : Settled t w.stamp := by
  obtain ⟨d, e, hd, hcom, hown, he, hall⟩ := hs
  cases hf with
  | own ho hk =>
    have hdw : t.clients.lookup w.stamp.owner = some d := ho ▸ hd
    exact ⟨d, e, hdw, hcom, hw.own hdw (.inr hcom), ho ▸ he, hall⟩
  | seen c d' e' hc hd' hcom' hown' he' hlt =>
    refine ⟨d', e', hd', hcom', hown', he', fun y c' hc' hopen => ?_⟩
    obtain rfl := mem_unique hc hd
    exact (hlt.trans_le ((hi.client _ c hc).viewEnded e he)).trans (hall y c' hc' hopen)

/-- What has committed below a horizon is settled. -/
theorem settled_of_horizon (hi : Timeline.Inv t) (hst : Held t st) (hh : Horizon t h)
    (hlt : st.xid < h) (hcom : (t.mgr.status st.xid).isCommitted = true) : Settled t st := by
  obtain ⟨d, hd, hx, -⟩ := hst
  have hown : Own d.handle st.xid := (mem_txnXids.1 hx).resolve_right fun hr => by
    rw [hi.status_rolled hd hr] at hcom
    cases hcom
  have hphase : d.phase = .committed := by
    rw [hi.status_own hd hown] at hcom
    exact Timeline.Phase.isCommitted_status.1 hcom
  obtain ⟨e, he⟩ : ∃ e, t.ended st.owner = some e := hi.exists_ended hd hphase
  refine ⟨d, e, hd, hphase, hown, he, fun y c hc hopen => ?_⟩
  have hne : y ≠ st.owner := by
    rintro rfl
    obtain rfl := mem_unique hc hd
    rw [hphase] at hopen
    cases hopen
  have hxmin := (hh.client y c hc hopen).2
  have hbefore : isCommittedBeforeSnapshot st.xid c.handle.snapshot t.mgr.status = true := by
    rw [isCommittedBeforeSnapshot_iff]
    refine ⟨?_, hcom⟩
    rw [← Bool.not_eq_true, Snapshot.xidInProgress_iff]
    omega
  obtain ⟨-, -, e', he', hlt'⟩ := (hi.committedBefore_iff hc hd hne hx).1 hbefore
  rw [he] at he'
  cases he'
  exact hlt'

/-! ## Certified slots -/

/-- Everything that is in the slot is settled. -/
structure Certified (t : Timeline.State) (sl : Slot) : Prop where
  inserted : Settled t sl.inserted
  updates : ∀ w ∈ sl.updates, Settled t w.stamp
  unstamped : sl.row.header.infomask.updatedInPlace = false → sl.row.header.xmax = 0

theorem Certified.read (h : Certified t sl) (hs : SlotInv t sl) (hi : Timeline.Inv t)
    (hc : t.clients.lookup x = some c) (hp : c.phase = .running) (k : ℕ) :
    sl.row.read (snapshotAt c k) t.mgr.status = some sl.row.payload := by
  have hopen : c.phase.status = .inProgress := by
    rw [hp]
    rfl
  have hseen := h.inserted.sees (k := k) hc hopen
  unfold Row.read
  cases hu : sl.row.header.infomask.updatedInPlace with
  | true =>
    obtain ⟨w, hw, -⟩ := hs.inPlace hu
    rw [hs.isVisible_inPlace hi hc hp hseen hu hw,
      if_pos ((h.updates w (List.mem_of_mem_head? hw)).sees hc hopen)]
    rfl
  | false =>
    rw [hs.isVisible_unstamped hi hc hseen hu (h.unstamped hu),
      if_neg (h.inserted.owner_ne hc hopen), TupleHeader.visibleOutcome]
    split_ifs
    · -- the undo log has nothing for the reader
      have hall := (hs.undo_visible_iff (k := k) hi hc).2 fun w hw _ =>
        (h.updates w hw).sees hc hopen
      show some ((undoPreImage _ _ _ _).getD _) = _
      rw [undoPreImage, undoLoop_of_visible hall]
      rfl
    · rfl

/-- A visit does not find anything to undo in a certified slot. -/
theorem Certified.visit (h : Certified t sl) (hs : SlotInv t sl) (hi : Timeline.Inv t)
    (hd : Condemned t) {u : ℕ × Visit} {todo : List (ℕ × Visit)} {p : Timeline.Phase}
    (hc : t.clients.lookup x = some c) (hp : Timeline.Visits c u todo p) :
    Certified (t.tick (t.setClient x { c with phase := p })) (sl.undo u todo) := by
  have hmono : ∀ {st}, Settled t st → Settled (t.tick (t.setClient x { c with phase := p })) st :=
    fun hset => hset.visit hc hp.status (not_committed_of_visit hp)
  obtain ⟨z, v⟩ := u
  cases v with
  | updates =>
    have huntouched : ¬ sl.touched z = true := fun htouch => by
      obtain ⟨w, hw, hz, -⟩ := hs.touched_iff.1 htouch
      have ho := (hs.owner_of_visit (v := .updates) hi hd hc hp (mem_live.1 (mem_updates.1 hw).1).1
        (hz ▸ List.mem_cons_self)).1
      exact (h.updates w hw).owner_ne hc hp.isOpen ho
    rw [show sl.undo (z, .updates) todo = sl.undoUpdates z todo from rfl,
      SlotInv.undoUpdates_of_untouched huntouched]
    exact ⟨hmono h.inserted, fun w hw => hmono (h.updates w hw), h.unstamped⟩
  | stamps =>
    have hrow : (sl.undoStamps z).row = sl.row := by
      unfold Slot.undoStamps Row.rollbackStamps
      dsimp only
      rw [if_pos]
      cases hu : sl.row.header.infomask.updatedInPlace with
      | true => exact .inr rfl
      | false =>
        rw [h.unstamped hu]
        have hz := (hd x c z .stamps hc (by rw [(todo_of_visit hp).2]; exact List.mem_cons_self)).1
        have := ((hi.client x c hc).range z hz).1
        exact .inl (by omega)
    refine ⟨hmono h.inserted, fun w hw => ?_, ?_⟩
    · rw [show (sl.undo (z, .stamps) todo).updates = _ from SlotInv.updates_undoStamps sl z] at hw
      exact hmono (h.updates w hw)
    · show (sl.undoStamps z).row.header.infomask.updatedInPlace = false →
        (sl.undoStamps z).row.header.xmax = 0
      rw [hrow]
      exact h.unstamped

theorem Certified.trim (h : Certified t sl) (oldest : ℕ) : Certified t (sl.trim oldest) := by
  refine ⟨h.inserted, fun w hw => ?_, h.unstamped⟩
  rw [SlotInv.updates_trim] at hw
  obtain ⟨w₀, hw₀, rfl⟩ := List.mem_map.1 hw
  exact h.updates w₀ hw₀

/-! ## The certification -/

/-- Vacuum does not meet a tuple without `xmax` whose in-place history reaches its horizon. -/
def MarksSettled (s : State) (a : Act) : Prop :=
  match a with
  | .mark oldest => ∀ sl ∈ s.slots, sl.row.header.xmax = 0 →
    sl.row.header.infomask.inplaceHistory = true → ∀ u ∈ sl.row.undo, u.writerXid < oldest
  | _ => True

instance : DecidableRel MarksSettled := fun s a => by
  unfold MarksSettled
  split <;> infer_instance

/-- **What the look of vacuum at a tuple ensures.** -/
theorem SlotInv.certified (hs : SlotInv t sl) (hi : Timeline.Inv t) (hh : Horizon t h)
    (hall : sl.row.allVisible h t.mgr.status = true)
    (hrec : sl.row.header.xmax = 0 → sl.row.header.infomask.inplaceHistory = true →
      ∀ u ∈ sl.row.undo, u.writerXid < h) :
    Certified t sl := by
  obtain ⟨hxmin, hxmax⟩ := (Bool.and_eq_true _ _).mp hall
  have hcommitted : ∀ w ∈ sl.live, ∀ h', Horizon t h' → w.stamp.xid < h' →
      t.mgr.status w.stamp.xid = .committed := fun w hw h' hh' hlt => by
    obtain ⟨d, hd, hcom, hown⟩ := hs.committed_of_horizon hi hw hh' hlt
    rw [hi.status_own hd hown, hcom]
    rfl
  have hsettled : ∀ w ∈ sl.live, ∀ h', Horizon t h' → w.stamp.xid < h' → Settled t w.stamp :=
    fun w hw h' hh' hlt => settled_of_horizon hi (hs.heldLive hw) hh' hlt (by
      rw [hcommitted w hw h' hh' hlt]
      rfl)
  have hhead : sl.row.header.xmax ≠ 0 → sl.row.header.xmax < h ∧
      sl.row.header.infomask.updatedInPlace = true := by
    intro hne
    have hvalid : Xid.isInvalid sl.row.header.xmax = false := by
      rw [← Bool.not_eq_true, Xid.isInvalid_iff]
      exact hne
    simp only [xmaxAllVisible, hvalid, Bool.false_or, Bool.and_eq_true, Bool.or_eq_true,
      decide_eq_true_eq] at hxmax
    obtain ⟨hlt, hab | ⟨hu, -⟩⟩ := hxmax
    · -- the undo of a write is over before its transaction ends
      by_contra hnot
      have hu : sl.row.header.infomask.updatedInPlace = false := by
        rw [← Bool.not_eq_true]
        exact fun hu => hnot ⟨hlt, hu⟩
      obtain ⟨w, hw, -, hx, -⟩ := hs.classical hu hne
      rw [hx] at hab hlt
      rw [hcommitted w hw h hh hlt] at hab
      cases hab
    · exact ⟨hlt, hu⟩
  have hzero : sl.row.header.infomask.updatedInPlace = false → sl.row.header.xmax = 0 := by
    intro hu
    by_contra hne
    cases (hhead hne).2.symm.trans hu
  refine ⟨?_, fun u hu => ?_, hzero⟩
  · obtain ⟨d, hd, hx, -⟩ := id hs.heldInsert
    have h3 := ((hi.client _ d hd).range _ hx).1
    simp only [xminAllVisible, hs.xmin, Bool.or_eq_true, beq_iff_eq, Bool.and_eq_true,
      decide_eq_true_eq] at hxmin
    obtain h2 | ⟨hlt, hcom⟩ := hxmin
    · omega
    · exact settled_of_horizon hi hs.heldInsert hh hlt hcom
  · obtain ⟨hlive, hup⟩ := mem_updates.1 hu
    cases hin : sl.row.header.infomask.updatedInPlace with
    | true =>
      obtain ⟨w, hw, hx, -⟩ := hs.inPlace hin
      have hmem : w ∈ sl.live := (mem_updates.1 (List.mem_of_mem_head? hw)).1
      have hne := (hs.heldLive hmem).ne_zero hi
      have hset := hsettled w hmem h hh (hx ▸ (hhead (hx ▸ hne)).1)
      rcases hs.follows_head hw hu with rfl | hf
      · exact hset
      · exact hset.of_follows hi hf (hs.alive u hlive)
    | false =>
      cases htrim : u.trimmed with
      | true =>
        obtain ⟨h', hh', hlt⟩ := hs.trimmed u hlive htrim
        exact hsettled u hlive h' hh' hlt
      | false =>
        obtain ⟨old, new, inverse, hch⟩ := isUpdate_iff.1 hup
        have hmem := List.mem_filterMap.2 ⟨u, hu, record?_of_update hch htrim⟩
        rw [← hs.undo] at hmem
        have hhist : sl.row.header.infomask.inplaceHistory = true :=
          (hs.history (List.ne_nil_of_mem hmem)).resolve_left (by simp [hin])
        exact hsettled u hlive h hh (hrec (hzero hin) hhist _ hmem)

/-- A statement writes to a certified page only if it clears bits. -/
def ClearsMap (s : State) (a : Act) : Prop :=
  ∀ x ∈ a.writer, s.allVisible = true → s.clears x = true

instance instDecidableRelClearsMap : DecidableRel ClearsMap := fun _ a =>
  inferInstanceAs (Decidable (∀ x ∈ a.writer, _))

/-- **Every step keeps a set bit sound.** -/
theorem Inv.certified_step (hi : Inv s) (ht : Timed s a)
    (hcert : s.allVisible = true → ∀ sl ∈ s.slots, Certified s.txn sl) (hmark : MarksSettled s a)
    (hmap : ClearsMap s a) (h : Heap.step s a = some s') (hbit : s'.allVisible = true) :
    ∀ sl ∈ s'.slots, Certified s'.txn sl := by
  intro sl' hsl'
  cases a with simp only [Heap.step] at h
  | txn b =>
    obtain ⟨t', ht', rfl⟩ := map_eq_some_iff.1 h
    obtain ⟨h₁, h₂, h₃⟩ := hcert hbit sl' hsl'
    exact ⟨h₁.step hi.txn ht ht', fun w hw => (h₂ w hw).step hi.txn ht ht', h₃⟩
  | insert x payload =>
    split at h <;> cases h
    obtain ⟨hall, hclears⟩ := Bool.and_eq_true_iff.1 hbit
    rw [hmap _ rfl hall] at hclears
    cases hclears
  | update | delete =>
    rcases statement_eq_some h with rfl | ⟨_, _, _, _, -, -, -, -, -, rfl⟩
    · exact hcert hbit sl' hsl'
    · obtain ⟨hall, hclears⟩ := Bool.and_eq_true_iff.1 hbit
      rw [hmap _ rfl hall] at hclears
      cases hclears
  | visit x =>
    have hold : s.allVisible = true := by
      split at h <;> cases h
      exact hbit
    obtain ⟨o, hmem, hst⟩ := slotStep (a := .visit x) h hsl'
    generalize s'.txn = t' at hst
    cases hst with
    | keep => exact hcert hold sl' (hmem _ rfl)
    | visit hc hp =>
      exact (hcert hold _ (hmem _ rfl)).visit (hi.slot _ (hmem _ rfl)) hi.txn hi.condemned hc hp
  | enter | sample | markElsewhere =>
    cases h
    exact hcert hbit sl' hsl'
  | trim oldest =>
    split_ifs at h
    cases h
    obtain ⟨sl, hsl, rfl⟩ := List.mem_map.1 hsl'
    exact (hcert hbit sl hsl).trim oldest
  | mark oldest =>
    split_ifs at h with ho
    cases h
    exact (hi.slot sl' hsl').certified hi.txn (hi.horizon _ ho) (List.all_eq_true.1 hbit sl' hsl')
      (hmark sl' hsl')

/-- The conditions on the steps. -/
def MapSafe (s : State) (a : Act) : Prop :=
  Timed s a ∧ MarksSettled s a ∧ WalksUndo s a ∧ ClearsMap s a

instance instDecidableRelMapSafe : DecidableRel MapSafe := fun _ _ =>
  inferInstanceAs (Decidable (_ ∧ _))

/-- **A page whose bit is set reads the same on both paths**, from every snapshot in use and at
every command. -/
theorem allVisibleRows_eq_reads {s : State} (h : machine.Reach MapSafe s)
    (hbit : s.allVisible = true) {x : ℕ} {c : Client} (hc : s.txn.clients.lookup x = some c)
    (hp : c.phase = .running) (k : ℕ) :
    allVisibleRows s.page = reads (snapshotAt c k) s.txn.mgr.status s.page := by
  have hinv : Inv s ∧ (s.allVisible = true → ∀ sl ∈ s.slots, Certified s.txn sl) := by
    refine Machine.Reach.invariant
      (P := fun s => Inv s ∧ (s.allVisible = true → ∀ sl ∈ s.slots, Certified s.txn sl))
      ⟨inv_init, fun _ sl hsl => by cases hsl⟩ (fun s a s' _ hs hC hstep => ?_) h
    obtain ⟨ht, hmark, hwalk, hmap⟩ := hC
    exact ⟨hs.1.step ht hwalk hstep, hs.1.certified_step ht hs.2 hmark hmap hstep⟩
  unfold allVisibleRows reads State.page
  rw [List.filterMap_map, List.filterMap_map]
  refine List.filterMap_congr fun sl hsl => ?_
  have hread := (hinv.2 hbit sl hsl).read (hinv.1.slot sl hsl) hinv.1.txn hc hp k
  simp [hread]

/-- What a running transaction reads from the page. -/
def State.readBy (s : State) (x : ℕ) : Option (List (TupleId × Payload)) :=
  (s.running x).map fun c => reads c.handle.snapshot s.txn.mgr.status s.page

/-- Vacuum certifies the page once the transaction has committed, and a later one reads it. -/
theorem restored_row_certified : ∃ s c, machine.Reach MapSafe s ∧ s.allVisible = true ∧
    s.running 7 = some c ∧ (s.slots.map (·.row.header.xmax)) = [0] ∧
    (s.slots.map (·.row.header.infomask.inplaceHistory)) = [true] ∧
    allVisibleRows s.page = reads (snapshotAt c 0) s.txn.mgr.status s.page := by
  obtain ⟨s, hs, hbit, hrun, hrow⟩ := Machine.exists_reach_of_runIf (M := machine) (C := MapSafe)
    (p := fun s => s.allVisible = true ∧ (s.running 7).isSome = true ∧
      (s.slots.map (·.row.header.xmax)) = [0] ∧
      (s.slots.map (·.row.header.infomask.inplaceHistory)) = [true])
    (restoredUpdate ++ [.txn (.commit 4)] ++ opening 7 .readCommitted ++ [.sample 7, .mark 7])
    (by decide)
  obtain ⟨c, hc⟩ := isSome_iff_exists.1 hrun
  obtain ⟨hlook, hp⟩ := running_eq_some.1 hc
  exact ⟨s, c, hs, hbit, hc, hrow.1, hrow.2, allVisibleRows_eq_reads hs hbit hlook hp 0⟩

/-- What a scan yields for a slot. -/
def item (slot : ℕ) (id val : Int32) : TupleId × Payload :=
  ({ relation := 0, block := 0, slot := slot }, { id := id, val := val })

/-- **A certified page shows an update of a transaction that has not ended.** -/
theorem allVisible_of_running_update : ∃ s,
    machine.Reach (fun s a => Timed s a ∧ WalksUndo s a ∧ ClearsMap s a) s ∧
    s.allVisible = true ∧ s.txn.mgr.status 4 = .inProgress ∧ s.readBy 7 = some [item 0 1 10] ∧
    allVisibleRows s.page = [item 0 1 15] :=
  Machine.exists_reach_of_runIf
    (restoredUpdate ++ [.sample 4, .mark 4] ++ opening 7 .readCommitted) (by decide)

/-- A running transaction has changed a certified page, which has the rows `rows`. -/
def BitLeft (rows : List (TupleId × Payload)) : Prop := ∃ s,
  machine.Reach (fun s a => Timed s a ∧ MarksSettled s a ∧ WalksUndo s a) s ∧
    s.allVisible = true ∧ s.txn.mgr.status 4 = .inProgress ∧ s.readBy 5 = some [item 0 1 10] ∧
    allVisibleRows s.page = rows

/-- **Two statements leave the bit**: one that found no map before vacuum set it, and a COPY. -/
theorem statement_leaves_bit : BitLeft [item 0 1 15] ∧ BitLeft [item 0 1 10, item 1 2 20] := by
  constructor
  · exact Machine.exists_reach_of_runIf
      (committedRow ++ opening 4 .readCommitted ++ [.enter 4 none, .sample 4, .mark 4,
        .update 4 0 .tid (fun _ => true) .val 5] ++ opening 5 .readCommitted) (by decide)
  · exact Machine.exists_reach_of_runIf
      (committedRow ++ [.sample 4, .mark 4] ++ opening 4 .readCommitted ++ [.enter 4 (some false),
        .insert 4 { id := 2, val := 20 }] ++ opening 5 .readCommitted) (by decide)

end UltraSql.Heap
