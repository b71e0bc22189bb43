import UltraSql.Heap.SnapshotReads

/-!
# Who has written to a page

What a page should read depends on the stamps of its writes and on which of them are seen. A step
adds the stamp of its writer, if it is a write, and nothing else: visits that undo writes and vacuum
leave all stamps where they are, so that what is expected of the page stays the same for everyone
who does not see the new write.
-/

namespace UltraSql.Heap

open List
open Timeline (Visit Client)

variable {s s' : State} {t t' : Timeline.State} {a : Act} {x y b k : ℕ} {c d : Client} {st : Stamp}
  {sl : Slot}

/-! ## Stamps -/

/-- Who has written to the row, also what is undone. -/
def Slot.stamps (sl : Slot) : List Stamp := sl.inserted :: sl.writes.map (·.stamp)

def State.stamps (s : State) : List Stamp := s.slots.flatMap Slot.stamps

theorem mem_stamps : st ∈ s.stamps ↔ ∃ sl ∈ s.slots, st ∈ sl.stamps := mem_flatMap

theorem Slot.mem_stamps : st ∈ sl.stamps ↔ st = sl.inserted ∨ ∃ w ∈ sl.writes, w.stamp = st := by
  rw [Slot.stamps, mem_cons, mem_map]

theorem Inv.held (hi : Inv s) (h : st ∈ s.stamps) : Held s.txn st := by
  obtain ⟨sl, hsl, hst⟩ := mem_stamps.1 h
  rcases Slot.mem_stamps.1 hst with rfl | ⟨w, hw, rfl⟩
  · exact (hi.slot sl hsl).heldInsert
  · exact (hi.slot sl hsl).held w hw

/-- What is expected depends on who has written only. -/
theorem Slot.expected_congr {f g : Stamp → Bool} (h : ∀ st ∈ sl.stamps, f st = g st) :
    sl.expected f = sl.expected g := by
  have hwrites : sl.writes.find? (f ·.stamp) = sl.writes.find? (g ·.stamp) := by
    rw [← head?_filter, ← head?_filter]
    refine congrArg head? (filter_congr fun w hw => h _ ?_)
    exact Slot.mem_stamps.2 (.inr ⟨w, hw, rfl⟩)
  unfold Slot.expected
  rw [h _ (Slot.mem_stamps.2 (.inl rfl)), hwrites]

/-- Marks on the writes do not change it. -/
theorem Slot.expected_map {m : Write → Write} (hstamp : ∀ w, (m w).stamp = w.stamp)
    (hresult : ∀ w, (m w).result = w.result) (r : Row) (f : Stamp → Bool) :
    ({ sl with row := r, writes := sl.writes.map m } : Slot).expected f = sl.expected f := by
  unfold Slot.expected
  simp only [find?_map, Function.comp_def, hstamp]
  cases sl.writes.find? (f ·.stamp) with
  | none => rfl
  | some w => simp [hresult]

theorem Slot.expected_undo (v : ℕ × Visit) (todo : List (ℕ × Visit)) (f : Stamp → Bool) :
    (sl.undo v todo).expected f = sl.expected f := by
  have hmark : ∀ (p : Write → Bool) (r : Row),
      ({ sl with row := r, writes := sl.markUndone p } : Slot).expected f = sl.expected f :=
    fun p r => Slot.expected_map (fun w => by split_ifs <;> rfl) (fun w => by split_ifs <;> rfl) r f
  obtain ⟨z, v⟩ := v
  cases v with
  | updates =>
    simp only [Slot.undo, Slot.undoUpdates]
    split_ifs
    · exact hmark _ _
    · rfl
  | stamps => exact hmark _ _

theorem Slot.expected_trim (oldest : ℕ) (f : Stamp → Bool) :
    (sl.trim oldest).expected f = sl.expected f :=
  Slot.expected_map (m := Write.trimBelow oldest) (fun _ => rfl) (fun _ => rfl) _ f

/-- A write that is not seen changes nothing. -/
theorem Slot.expected_push {w : Write} {f : Stamp → Bool} (r : Row) (hw : f w.stamp = false) :
    (sl.push r w).expected f = sl.expected f := by
  simp [Slot.expected, Slot.push, hw]

theorem filterMap_set {α β : Type*} {g : α → Option β} {l : List α} {i : ℕ} {u v : α}
    (hi : l[i]? = some u) (h : g v = g u) : (l.set i v).filterMap g = l.filterMap g := by
  induction l generalizing i with
  | nil => rfl
  | cons w l ih =>
    cases i with
    | zero =>
      cases hi
      rw [set_cons_zero, filterMap_cons, filterMap_cons, h]
    | succ i =>
      rw [set_cons_succ, filterMap_cons, filterMap_cons, ih hi]

/-- **What is expected of the page changes by the write of a step only.** -/
theorem filterMap_expected_step (h : step s a = some s') (f : Stamp → Bool)
    (hnew : ∀ x c, a.writer = some x → s.running x = some c → f (stampOf x c) = false) :
    s'.slots.filterMap (·.expected f) = s.slots.filterMap (·.expected f) := by
  cases a with simp only [step] at h
  | txn b =>
    obtain ⟨t', -, rfl⟩ := Option.map_eq_some_iff.1 h
    rfl
  | insert x payload =>
    split at h <;> cases h
    rename_i c hc
    have hno := hnew x c rfl hc
    rw [filterMap_append]
    simp only [filterMap_cons, filterMap_nil, Slot.expected]
    rw [show f ⟨x, c.handle.writeXid, c.handle.currentCommand⟩ = false from hno]
    simp
  | update x i | delete x i =>
    rcases statement_eq_some h with rfl | ⟨c, sl, row, change, hc, hp, hi, -, -, rfl⟩
    · rfl
    · exact filterMap_set hi
        (Slot.expected_push row (hnew x c rfl (running_eq_some.2 ⟨hc, hp⟩)))
  | visit x =>
    split at h <;> cases h
    rw [filterMap_map]
    exact filterMap_congr fun sl _ => Slot.expected_undo _ _ f
  | enter | sample | markElsewhere =>
    cases h
    rfl
  | trim oldest =>
    split_ifs at h
    cases h
    rw [filterMap_map]
    exact filterMap_congr fun sl _ => Slot.expected_trim oldest f
  | mark oldest =>
    split_ifs at h
    cases h
    rfl

/-- **A stamp was there before, or is that of the writer of the step.** -/
theorem stamps_step (h : step s a = some s') (hst : st ∈ s'.stamps) :
    st ∈ s.stamps ∨ ∃ x c, a.writer = some x ∧ s.running x = some c ∧ st = stampOf x c := by
  obtain ⟨sl', hsl', hst⟩ := mem_stamps.1 hst
  obtain ⟨o, hold, hstep⟩ := slotStep h hsl'
  have hkeep : ∀ {sl}, o = some sl → st ∈ sl.stamps → st ∈ s.stamps := fun ho hst =>
    mem_stamps.2 ⟨_, hold _ ho, hst⟩
  have hmark : ∀ {sl : Slot} {m : Write → Write} {r : Row}, o = some sl →
      (∀ w, (m w).stamp = w.stamp) →
      st ∈ ({ sl with row := r, writes := sl.writes.map m } : Slot).stamps → st ∈ s.stamps := by
    intro sl m r ho hm hst
    refine hkeep ho ?_
    rcases Slot.mem_stamps.1 hst with h | ⟨w, hw, h⟩
    · exact Slot.mem_stamps.2 (.inl h)
    · obtain ⟨w₀, hw₀, rfl⟩ := mem_map.1 hw
      exact Slot.mem_stamps.2 (.inr ⟨w₀, hw₀, (hm w₀).symm.trans h⟩)
  have hpush : ∀ {x : ℕ} {c : Client} {sl : Slot} {r : Row} {w : Write}, o = some sl →
      w.stamp = stampOf x c → st ∈ (sl.push r w).stamps → st ∈ s.stamps ∨ st = stampOf x c := by
    intro x c sl r w ho hw hst
    rcases Slot.mem_stamps.1 hst with h | ⟨u, hu, h⟩
    · exact .inl (hkeep ho (Slot.mem_stamps.2 (.inl h)))
    · rcases mem_cons.1 hu with rfl | hu
      · exact .inr (h.symm.trans hw)
      · exact .inl (hkeep ho (Slot.mem_stamps.2 (.inr ⟨u, hu, h⟩)))
  generalize s'.txn = t' at hstep
  cases hstep with
  | time | keep => exact .inl (hkeep rfl hst)
  | @insert x payload c hc hp tid =>
    refine .inr ⟨x, c, rfl, running_eq_some.2 ⟨hc, hp⟩, ?_⟩
    rcases Slot.mem_stamps.1 hst with h | ⟨w, hw, -⟩
    · exact h
    · cases hw
  | @update x _ _ _ _ _ c _ _ hc hp =>
    exact (hpush rfl rfl hst).imp_right fun h => ⟨x, c, rfl, running_eq_some.2 ⟨hc, hp⟩, h⟩
  | @delete x _ _ c _ _ hc hp =>
    exact (hpush rfl rfl hst).imp_right fun h => ⟨x, c, rfl, running_eq_some.2 ⟨hc, hp⟩, h⟩
  | @visit x c v p todo sl hc hp hnext =>
    refine .inl ?_
    obtain ⟨z, v⟩ := v
    cases v with
    | stamps => exact hmark rfl (fun w => by split_ifs <;> rfl) hst
    | updates =>
      simp only [Slot.undo, Slot.undoUpdates] at hst
      split_ifs at hst
      · exact hmark rfl (fun w => by split_ifs <;> rfl) hst
      · exact hkeep rfl hst
  | @trim oldest => exact .inl (hmark (m := Write.trimBelow oldest) rfl (fun _ => rfl) hst)

/-- Who writes is between statements, and stays as it is. -/
theorem running_of_writer (h : step s a = some s') (hx : a.writer = some x) :
    (∃ c, s.running x = some c) ∧ s'.txn = s.txn := by
  cases a with
  | insert x payload =>
    cases hx
    simp only [step] at h
    split at h <;> cases h
    rename_i c hc
    exact ⟨⟨c, hc⟩, rfl⟩
  | update x i | delete x i =>
    cases hx
    refine ⟨?_, ?_⟩
    · cases hc : s.running x with
      | some c => exact ⟨c, rfl⟩
      | none =>
        simp only [step, State.statement, hc] at h
        cases h
    · rcases statement_eq_some h with rfl | ⟨_, _, _, _, -, -, -, -, -, rfl⟩
      · rfl
      · rfl
  | _ => cases hx

/-! ## The sessions of the heap's steps -/

/-- The session that takes the step, of those that are steps of the transactions. -/
def Act.session : Act → Option ℕ
  | .txn a => a.session
  | .visit x => some x
  | _ => none

theorem Inv.lookup_other (hi : Inv s) (h : Heap.step s a = some s') (ha : a.session ≠ some y)
    (hd : s.txn.clients.lookup y = some d) : s'.txn.clients.lookup y = some d := by
  rcases txn_step h with heq | ⟨b, rfl, hb⟩ | ⟨x, v, t', rfl, hv, heq⟩
  · exact heq ▸ hd
  · exact hi.txn.lookup_of_session_ne hb ha hd
  · obtain ⟨c, p, -, -, rfl, -⟩ := Timeline.nextVisit_eq_some hv
    rw [heq]
    exact (Timeline.lookup_setClient s.txn x y _).trans
      ((if_neg fun hyx => ha (congrArg some hyx.symm)).trans hd)

end UltraSql.Heap
