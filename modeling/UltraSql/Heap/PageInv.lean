import UltraSql.Heap.SlotSteps

/-!
# The page over time

`SlotStep` says once what a step can do to a slot. The invariants of a page are about its slots one
by one, and each of them is a case analysis of `SlotStep`.

**Theorem (`Inv.step`).** Every slot keeps its invariant, as long as no writer acts after a walk
through the undo log that has stopped halfway.

**Theorem (`Inv.chain_step`).** No walk stops halfway, as long as a visit that undoes the updates of
an XID finds their records newest in the undo log of each row.
-/

namespace UltraSql.Heap

open List Timeline Option
open Savepoints (txnXids mem_txnXids)

/-! ## What a step does to a slot -/

/-- A slot before and after a step, together with the transactions after it. A slot that was not
there before is `none`. -/
inductive SlotStep (s : State) : Act → Timeline.State → Option Slot → Slot → Prop
  | time {b t' sl} (h : Timeline.step s.txn b = some t') : SlotStep s (.txn b) t' (some sl) sl
  | keep {a sl} : SlotStep s a s.txn (some sl) sl
  | insert {x payload c} (hc : s.txn.clients.lookup x = some c) (hp : c.phase = .running)
    (tid : TupleId) :
    SlotStep s (.insert x payload) s.txn none
      { tid := tid
        row := { header := .fresh c.handle.writeXid c.handle.currentCommand tid
                 payload := payload
                 undo := [] }
        inserted := stampOf x c
        initial := payload
        writes := [] }
  | update {x i form predicate col delta c sl row} (hc : s.txn.clients.lookup x = some c)
    (hp : c.phase = .running) (hsl : s.slots[i]? = some sl)
    (hfresh : Untouched sl x c.handle.currentCommand)
    (h : sl.row.update form c.handle.snapshot s.txn.mgr.status predicate col delta
      c.handle.writeXid c.handle.currentCommand = .ok (some row)) :
    SlotStep s (.update x i form predicate col delta) s.txn (some sl)
      (sl.push row
        { stamp := stampOf x c
          change := .update sl.row.payload (updated sl.row col delta)
            (form.inverse sl.row.payload col delta) })
  | delete {x i predicate c sl row} (hc : s.txn.clients.lookup x = some c)
    (hp : c.phase = .running) (hsl : s.slots[i]? = some sl)
    (hfresh : Untouched sl x c.handle.currentCommand)
    (h : sl.row.delete c.handle.snapshot s.txn.mgr.status predicate c.handle.writeXid
      c.handle.currentCommand = .ok (some row)) :
    SlotStep s (.delete x i predicate) s.txn (some sl)
      (sl.push row { stamp := stampOf x c, change := .delete })
  | visit {x c v p todo sl} (hc : s.txn.clients.lookup x = some c)
    (hp : (c.phase = .undoing (v :: todo) ∧ p = if todo.isEmpty then .running else .undoing todo) ∨
      c.phase = .aborting (v :: todo) ∧ p = .aborting todo)
    (hnext : s.txn.nextVisit x = some (v, s.txn.setClient x { c with phase := p })) :
    SlotStep s (.visit x) (s.txn.tick (s.txn.setClient x { c with phase := p })) (some sl)
      (sl.undo v todo)
  | trim {oldest sl} (h : oldest ∈ s.horizons) :
    SlotStep s (.trim oldest) s.txn (some sl) (sl.trim oldest)

variable {s s' : State} {t t' : Timeline.State} {a : Act} {x z : ℕ} {c : Client} {v : Visit}
  {w : Write} {sl sl' : Slot}

theorem running_eq_some :
    s.running x = some c ↔ s.txn.clients.lookup x = some c ∧ c.phase = .running := by
  simp [State.running, filter_eq_some_iff]

/-- **What a visit of a statement does.** -/
theorem statement_eq_some {i : ℕ}
    {f : Client → Slot → Except WriteError (Option Row) × Change}
    (h : s.statement x i f = some s') :
    s' = s ∨ ∃ c sl row change, s.txn.clients.lookup x = some c ∧ c.phase = .running ∧
      s.slots[i]? = some sl ∧ Untouched sl x c.handle.currentCommand ∧
      f c sl = (.ok (some row), change) ∧
      s' = { s with
        slots := s.slots.set i (sl.push row { stamp := stampOf x c, change := change })
        allVisible := s.allVisible && !s.clears x } := by
  unfold State.statement at h
  split at h
  · rename_i c sl hc hsl
    split_ifs at h with hfresh
    obtain ⟨hc, hp⟩ := running_eq_some.1 hc
    split at h
    · rename_i row change hf
      cases h
      exact .inr ⟨c, sl, row, change, hc, hp, hsl, ⟨hfresh.1, hfresh.2⟩, hf, rfl⟩
    · cases h
      exact .inl rfl
  · cases h

theorem todo_of_visit {p : Timeline.Phase} {u : ℕ × Visit} {todo : List (ℕ × Visit)}
    (hp : Visits c u todo p) :
    p.todo = todo ∧ c.phase.todo = u :: todo := by
  rcases hp with ⟨hp, rfl⟩ | ⟨hp, rfl⟩
  · rw [hp]
    refine ⟨?_, rfl⟩
    cases todo <;> rfl
  · rw [hp]
    exact ⟨rfl, rfl⟩

/-- **Every slot comes from one before, by a step of its own.** -/
theorem slotStep (h : step s a = some s') (hsl : sl' ∈ s'.slots) :
    ∃ o, (∀ sl, o = some sl → sl ∈ s.slots) ∧ SlotStep s a s'.txn o sl' := by
  have hfrom : ∀ {a t sl₀}, sl₀ ∈ s.slots → SlotStep s a t (some sl₀) sl' →
      ∃ o, (∀ sl, o = some sl → sl ∈ s.slots) ∧ SlotStep s a t o sl' := by
    intro a t sl₀ hmem hst
    refine ⟨some sl₀, ?_, hst⟩
    rintro sl ⟨⟩
    exact hmem
  have hkeep : ∀ {a}, s'.slots = s.slots → s'.txn = s.txn →
      ∃ o, (∀ sl, o = some sl → sl ∈ s.slots) ∧ SlotStep s a s'.txn o sl' := by
    intro a hs ht
    rw [ht]
    exact hfrom (hs ▸ hsl) .keep
  -- a statement puts a new slot in the place of an old one
  have hset : ∀ {a i sl₀ sl₁}, s.slots[i]? = some sl₀ → SlotStep s a s.txn (some sl₀) sl₁ →
      sl' ∈ s.slots.set i sl₁ →
      ∃ o, (∀ sl, o = some sl → sl ∈ s.slots) ∧ SlotStep s a s.txn o sl' := by
    intro a i sl₀ sl₁ hi hst hmem
    rcases mem_or_eq_of_mem_set hmem with hold | rfl
    · exact hfrom hold .keep
    · exact hfrom (mem_of_getElem? hi) hst
  cases a with simp only [step] at h
  | txn b =>
    obtain ⟨t', ht', rfl⟩ := map_eq_some_iff.1 h
    exact hfrom hsl (.time ht')
  | insert x payload =>
    split at h <;> cases h
    rename_i c hc
    obtain ⟨hc, hp⟩ := running_eq_some.1 hc
    rcases mem_append.1 hsl with hold | hnew
    · exact hfrom hold .keep
    · obtain rfl := mem_singleton.1 hnew
      exact ⟨none, nofun, .insert hc hp _⟩
  | update x i form predicate col delta =>
    rcases statement_eq_some h with rfl | ⟨c, sl, row, change, hc, hp, hi, hfresh, hf, rfl⟩
    · exact hkeep rfl rfl
    · obtain ⟨hrow, rfl⟩ := Prod.mk.inj hf
      exact hset hi (.update hc hp hi hfresh hrow) hsl
  | delete x i predicate =>
    rcases statement_eq_some h with rfl | ⟨c, sl, row, change, hc, hp, hi, hfresh, hf, rfl⟩
    · exact hkeep rfl rfl
    · obtain ⟨hrow, rfl⟩ := Prod.mk.inj hf
      exact hset hi (.delete hc hp hi hfresh hrow) hsl
  | visit x =>
    split at h <;> cases h
    rename_i v t hv
    obtain ⟨c, p, todo, hc, rfl, hp⟩ := nextVisit_eq_some hv
    obtain ⟨sl, hmem, rfl⟩ := mem_map.1 hsl
    have hlook := lookup_setClient s.txn x x { c with phase := p }
    rw [if_pos rfl] at hlook
    refine hfrom hmem ?_
    rw [hlook]
    dsimp only
    rw [(todo_of_visit hp).1]
    exact .visit hc hp hv
  | enter | sample | markElsewhere =>
    cases h
    exact hkeep rfl rfl
  | trim oldest =>
    split_ifs at h with ho
    cases h
    obtain ⟨sl, hmem, rfl⟩ := mem_map.1 hsl
    exact hfrom hmem (.trim ho)
  | mark oldest =>
    split_ifs at h with ho
    cases h
    exact hkeep rfl rfl

theorem txn_step (h : step s a = some s') :
    s'.txn = s.txn ∨ (∃ b, a = .txn b ∧ Timeline.step s.txn b = some s'.txn) ∨
      ∃ x v t', a = .visit x ∧ s.txn.nextVisit x = some (v, t') ∧ s'.txn = s.txn.tick t' := by
  cases a with simp only [step] at h
  | txn b =>
    obtain ⟨t', ht', rfl⟩ := map_eq_some_iff.1 h
    exact .inr (.inl ⟨b, rfl, ht'⟩)
  | insert x payload =>
    split at h <;> cases h
    exact .inl rfl
  | update | delete =>
    rcases statement_eq_some h with rfl | ⟨_, _, _, _, -, -, -, -, -, rfl⟩
    · exact .inl rfl
    · exact .inl rfl
  | visit x =>
    split at h <;> cases h
    rename_i v t hv
    exact .inr (.inr ⟨x, v, t, rfl, hv, rfl⟩)
  | enter | sample | markElsewhere =>
    cases h
    exact .inl rfl
  | trim oldest | mark oldest =>
    split_ifs at h
    cases h
    exact .inl rfl

theorem horizons_step {k : ℕ} (h : step s a = some s') (hk : k ∈ s'.horizons) :
    k ∈ s.horizons ∨ a = .sample k ∧ s'.txn = s.txn := by
  cases a with
  | txn b =>
    obtain ⟨t', ht', rfl⟩ := map_eq_some_iff.1 h
    exact .inl hk
  | insert | visit =>
    simp only [step] at h
    split at h <;> cases h
    exact .inl hk
  | update | delete =>
    rcases statement_eq_some h with rfl | ⟨_, _, _, _, -, -, -, -, -, rfl⟩
    · exact .inl hk
    · exact .inl hk
  | enter | markElsewhere =>
    cases h
    exact .inl hk
  | sample oldest =>
    cases h
    rcases mem_cons.1 hk with rfl | hk
    · exact .inr ⟨rfl, rfl⟩
    · exact .inl hk
  | trim | mark =>
    simp only [step] at h
    split_ifs at h
    cases h
    exact .inl hk

/-! ## Visits -/

/-- What the visits to come undo does not count any more. -/
def Condemned (t : Timeline.State) : Prop :=
  ∀ x c z v, t.clients.lookup x = some c → (z, v) ∈ c.phase.todo →
    z ∈ txnXids c.handle ∧ (z ∈ c.handle.subtxnStack.rolledBack ∨ Failed c)

theorem condemned_step (hi : Timeline.Inv t) {b : Timeline.Act} (ht : Timely t b = true)
    (h : Timeline.step t b = some t') (hd : Condemned t) : Condemned t' := by
  intro y d' z v hd' hz
  rcases hi.known_or_running h hd' with ⟨d, hd₀⟩ | ⟨hrun, -⟩
  · obtain ⟨d'', hd'', hl⟩ := hi.later ht h hd₀
    obtain rfl := mem_unique hd' hd''
    cases hl.turn with
    | stay hp =>
      rw [hp] at hz
      obtain ⟨hx, hg⟩ := hd y d z v hd₀ hz
      refine ⟨hl.xids z hx, hg.imp (hl.rolled z) fun hf => ?_⟩
      unfold Failed
      rw [hp]
      exact hf
    | undo dead hp hp' hown hdead =>
      rw [hp'] at hz
      have hr := hdead z (mem_visits.1 hz)
      exact ⟨mem_txnXids.2 (.inr hr), .inl hr⟩
    | commit _ hp' | abort _ hp' =>
      rw [hp'] at hz
      cases hz
    | rollback hp hp' hh =>
      refine ⟨?_, .inr (.inr ⟨_, hp'⟩)⟩
      rw [hp'] at hz
      rw [hh]
      exact mem_abortWriteXidFamily.1 (mem_reverse.1 (mem_visits.1 hz))
  · rw [hrun] at hz
    cases hz

section Visit

variable {u : ℕ × Visit} {todo : List (ℕ × Visit)} {p : Timeline.Phase}
  (hc : t.clients.lookup x = some c) (hp : Visits c u todo p)

include hp

theorem failed_visit (hf : Failed c) : Failed { c with phase := p } := by
  rcases hp with ⟨hp, -⟩ | ⟨-, rfl⟩
  · rcases hf with hf | ⟨todo, hf⟩ <;> rw [hp] at hf <;> cases hf
  · exact .inr ⟨_, rfl⟩

theorem not_committed_of_visit : c.phase ≠ .committed := by
  rcases hp with ⟨hp, -⟩ | ⟨hp, -⟩ <;> rw [hp] <;> nofun

include hc

theorem visit_evolves : Evolves t (t.tick (t.setClient x { c with phase := p })) :=
  evolves_visit hc hp.status (not_committed_of_visit hp) (failed_visit hp)

theorem condemned_visit (hd : Condemned t) :
    Condemned (t.tick (t.setClient x { c with phase := p })) := by
  intro y d z v hd' hz
  have hlook : (if y = x then some { c with phase := p } else t.clients.lookup y) = some d :=
    (lookup_setClient t x y _).symm.trans hd'
  split_ifs at hlook with hyx
  · cases hlook
    have hz' : (z, v) ∈ c.phase.todo := by
      rw [(todo_of_visit hp).2]
      rw [show ({ c with phase := p } : Client).phase.todo = todo from (todo_of_visit hp).1] at hz
      exact mem_cons_of_mem _ hz
    obtain ⟨hx, hg⟩ := hd x c z v hc hz'
    exact ⟨hx, hg.imp_right (failed_visit hp)⟩
  · exact hd y d z v hlook hz

/-- A write stays live at a visit that is not for it. -/
theorem alive_visit (hw : Alive t w)
    (hne : w.stamp.owner = x → (w.stamp.xid, w.change.visit) ≠ u) :
    Alive (t.tick (t.setClient x { c with phase := p })) w := by
  obtain ⟨d, hd, hh⟩ := hw
  have hlook : (t.tick (t.setClient x { c with phase := p })).clients.lookup w.stamp.owner =
      if w.stamp.owner = x then some { c with phase := p } else t.clients.lookup w.stamp.owner :=
    lookup_setClient t x _ _
  by_cases ho : w.stamp.owner = x
  · rw [if_pos ho] at hlook
    refine ⟨_, hlook, ?_⟩
    rw [ho] at hd
    obtain rfl := mem_unique hc hd
    have hrest : (w.stamp.xid, w.change.visit) ∈ u :: todo →
        (w.stamp.xid, w.change.visit) ∈ todo := fun h =>
      (mem_cons.1 h).resolve_left (hne ho)
    unfold Holds at hh ⊢
    rcases hp with ⟨hp, rfl⟩ | ⟨hp, rfl⟩
    · rw [hp] at hh
      cases todo with
      | nil => exact hh.resolve_right fun h => by cases hrest h
      | cons v rest => exact hh.imp_right hrest
    · rw [hp] at hh
      exact hrest hh
  · rw [if_neg ho] at hlook
    exact ⟨d, hlook.trans hd, hh⟩

omit hp in
/-- An XID that a visit is for belongs to the visiting transaction alone. -/
theorem owner_of_todo (hi : Timeline.Inv t) (hd : Condemned t) {st : Stamp} (hst : Held t st)
    (hz : (st.xid, v) ∈ c.phase.todo) : st.owner = x ∧ Gone t st := by
  obtain ⟨d, hd₀, hx, -⟩ := hst
  obtain ⟨hxc, hg⟩ := hd x c _ _ hc hz
  have ho : st.owner = x := by
    by_contra hne
    exact hi.apart _ _ d c hd₀ hc hne _ hx hxc
  exact ⟨ho, c, ho ▸ hc, hg⟩

end Visit

namespace SlotInv

section Visit

variable {u : ℕ × Visit} {todo : List (ℕ × Visit)} {p : Timeline.Phase} (hs : SlotInv t sl)
  (hi : Timeline.Inv t) (hd : Condemned t) (hc : t.clients.lookup x = some c)
  (hp : Visits c u todo p)

include hs hi hd hc hp

theorem owner_of_visit (hw : w ∈ sl.writes) (hz : (w.stamp.xid, v) ∈ u :: todo) :
    w.stamp.owner = x ∧ Gone t w.stamp :=
  owner_of_todo (v := v) hc hi hd (hs.held w hw) (by rw [(todo_of_visit hp).2]; exact hz)

/-- Vacuum has left the records of an open transaction. -/
theorem untrimmed_of_visit (hw : w ∈ sl.live) (hz : (w.stamp.xid, v) ∈ u :: todo) :
    w.trimmed = false := by
  have ho := (hs.owner_of_visit hi hd hc hp (mem_live.1 hw).1 hz).1
  by_contra ht
  obtain ⟨d, hd', hcom, -⟩ := hs.committed_of_trimmed hi hw (Bool.not_eq_false _ |>.mp ht)
  rw [ho, hc] at hd'
  cases hd'
  exact not_committed_of_visit hp hcom

/-- **A visit keeps the invariant of a slot.** -/
theorem visit : SlotInv (t.tick (t.setClient x { c with phase := p })) (sl.undo u todo) := by
  have hev := visit_evolves hc hp
  have hmine : ∀ w ∈ sl.writes, w.stamp.xid = u.1 → Gone t w.stamp := fun w hw h =>
    (hs.owner_of_visit hi hd hc hp (v := u.2) hw (h ▸ mem_cons_self)).2
  have hkeep : ∀ w ∈ sl.live, w.stamp.xid = u.1 → w.trimmed = false := fun w hw h =>
    hs.untrimmed_of_visit hi hd hc hp (v := u.2) hw (h ▸ mem_cons_self)
  have halive : ∀ w ∈ sl.live, (w.stamp.xid, w.change.visit) ≠ u →
      Alive (t.tick (t.setClient x { c with phase := p })) w := fun w hw hne =>
    alive_visit hc hp (hs.alive w hw) fun _ => hne
  have hrest : ∀ w ∈ sl.writes, (w.stamp.xid, Visit.stamps) ∈ todo → Gone t w.stamp :=
    fun w hw h => (hs.owner_of_visit hi hd hc hp hw (mem_cons_of_mem _ h)).2
  obtain ⟨z, v⟩ := u
  cases v with
  | stamps =>
    refine hs.undoStamps hev (fun w hw h _ => (hmine w hw h).mono hev) fun w hw hne =>
      halive w hw fun heq => hne ?_
    obtain ⟨h₁, h₂⟩ := Prod.mk.inj heq
    refine ⟨h₁, ?_⟩
    cases hch : w.change with
    | delete => rfl
    | update =>
      rw [hch] at h₂
      cases h₂
  | updates =>
    refine hs.undoUpdates hev (fun w hw h => ?_) (fun w hw hne => halive w hw fun heq => hne ?_)
      fun w hw => hkeep w (mem_updates.1 hw).1
    · rcases h with h | ⟨-, h⟩
      · exact (hmine w hw h).mono hev
      · exact (hrest w hw h).mono hev
    · obtain ⟨h₁, h₂⟩ := Prod.mk.inj heq
      exact ⟨h₁, decide_eq_true h₂⟩

end Visit

end SlotInv

/-! ## The invariant -/

/-- Snapshots are taken at a clear moment, and `vacuum_horizon` returns a horizon. -/
def Timed (s : State) (a : Act) : Prop :=
  match a with
  | .txn b => Timely s.txn b = true
  | .sample oldest => Horizon s.txn oldest
  | _ => True

instance instDecidableRelTimed : DecidableRel Timed := fun s a => by
  unfold Timed
  split <;> infer_instance

/-- A writer whose walk through the undo log gives nothing has nothing to find there. -/
def WalksUndo (s : State) (a : Act) : Prop :=
  match a with
  | .update x i .. | .delete x i _ =>
    ∀ c ∈ s.running x, ∀ sl ∈ s.slots[i]?, sl.row.walks c.handle.snapshot s.txn.mgr.status
  | _ => True

instance : DecidableRel WalksUndo := fun s a => by
  unfold WalksUndo
  split <;> infer_instance

structure Inv (s : State) : Prop where
  txn : Timeline.Inv s.txn
  slot : ∀ sl ∈ s.slots, SlotInv s.txn sl
  horizon : ∀ h ∈ s.horizons, Horizon s.txn h
  condemned : Condemned s.txn

theorem inv_init : Inv {} := ⟨Timeline.inv_init, nofun, nofun, nofun⟩

theorem Inv.evolves (hi : Inv s) (ht : Timed s a) (h : Heap.step s a = some s') :
    Evolves s.txn s'.txn := by
  rcases txn_step h with heq | ⟨b, rfl, hb⟩ | ⟨x, v, t', rfl, hv, heq⟩
  · exact heq ▸ .refl _
  · exact evolves_step hi.txn ht hb
  · obtain ⟨c, p, todo, hc, rfl, hp⟩ := nextVisit_eq_some hv
    exact heq ▸ visit_evolves hc hp

theorem Inv.step (hi : Inv s) (ht : Timed s a) (hwalk : WalksUndo s a)
    (h : Heap.step s a = some s') : Inv s' := by
  have htxn : Timeline.Inv s'.txn ∧ Condemned s'.txn := by
    rcases txn_step h with heq | ⟨b, rfl, hb⟩ | ⟨x, v, t', rfl, hv, heq⟩
    · exact heq ▸ ⟨hi.txn, hi.condemned⟩
    · exact ⟨hi.txn.step ht hb, condemned_step hi.txn ht hb hi.condemned⟩
    · rw [heq]
      refine ⟨hi.txn.nextVisit hv, ?_⟩
      obtain ⟨c, p, todo, hc, rfl, hp⟩ := nextVisit_eq_some hv
      exact condemned_visit hc hp hi.condemned
  refine ⟨htxn.1, fun sl' hsl' => ?_, fun k hk => ?_, htxn.2⟩
  · obtain ⟨o, hold, hst⟩ := slotStep h hsl'
    generalize s'.txn = t' at hst
    cases hst with
    | time hb =>
      have hs := hi.slot sl' (hold _ rfl)
      exact hs.mono (evolves_step hi.txn ht hb) fun w hw =>
        alive_step hi.txn ht hb (hs.heldLive hw) (hs.alive w hw)
    | keep => exact hi.slot sl' (hold _ rfl)
    | insert hc => exact slotInv_insert hc _ _
    | update hc hp hsl hfresh hrow =>
      exact (hi.slot _ (hold _ rfl)).update hi.txn hc hp hfresh
        (hwalk _ (running_eq_some.2 ⟨hc, hp⟩) _ hsl) hrow
    | delete hc hp hsl hfresh hrow =>
      exact (hi.slot _ (hold _ rfl)).delete hi.txn hc hp hfresh
        (hwalk _ (running_eq_some.2 ⟨hc, hp⟩) _ hsl) hrow
    | visit hc hp => exact (hi.slot _ (hold _ rfl)).visit hi.txn hi.condemned hc hp
    | trim ho => exact (hi.slot _ (hold _ rfl)).trim (hi.horizon _ ho)
  · rcases horizons_step h hk with hk | ⟨rfl, heq⟩
    · exact (hi.evolves ht h).horizon k (hi.horizon k hk)
    · exact heq ▸ ht

/-! ## The chains -/

/-- The records of `z` are the newest ones in the undo log of the row. -/
def Row.newest (r : Row) (z : ℕ) : Prop :=
  r.undo.Pairwise fun a b => b.writerXid = z → a.writerXid = z

instance (r : Row) (z : ℕ) : Decidable (r.newest z) :=
  inferInstanceAs (Decidable (List.Pairwise _ _))

/-- A visit that undoes the updates of an XID finds their records newest in the undo log of each
row. -/
def UndoesNewest (s : State) (a : Act) : Prop :=
  match a with
  | .visit x =>
    match s.txn.nextVisit x with
    | some ((z, .updates), _) => ∀ sl ∈ s.slots, sl.row.newest z
    | _ => True
  | _ => True

instance : DecidableRel UndoesNewest := fun s a => by
  unfold UndoesNewest
  split
  · split <;> infer_instance
  · infer_instance

theorem SlotInv.updates_newest (hs : SlotInv t sl) (hi : Timeline.Inv t)
    (hkeep : ∀ w ∈ sl.updates, w.stamp.xid = z → w.trimmed = false ∧
      ∃ d, t.clients.lookup w.stamp.owner = some d ∧ d.phase ≠ .committed)
    (h : sl.row.newest z) :
    sl.updates.Pairwise fun a b => b.stamp.xid = z → a.stamp.xid = z := by
  unfold Row.newest at h
  rw [hs.undo, pairwise_filterMap] at h
  refine (hs.follows.and h).imp_of_mem fun {a b} ha hb hab hz => ?_
  obtain ⟨hf, hrec⟩ := hab
  obtain ⟨htb, d, hd, hcom⟩ := hkeep b hb hz
  have hta : a.trimmed = false := by
    -- over a write of an open transaction there is nothing that is committed
    by_contra hta
    obtain ⟨d', hd', hcom', -⟩ := hs.committed_of_trimmed hi (mem_updates.1 ha).1
      (Bool.not_eq_false _ |>.mp hta)
    rw [hf.owner_eq hd hcom, hd] at hd'
    cases hd'
    exact hcom hcom'
  obtain ⟨_, _, _, hcha⟩ := isUpdate_iff.1 (mem_updates.1 ha).2
  obtain ⟨_, _, _, hchb⟩ := isUpdate_iff.1 (mem_updates.1 hb).2
  exact hrec _ (record?_of_update hcha hta) _ (record?_of_update hchb htb) hz

/-- **Every step keeps the chains**, if visits undo the newest updates. -/
theorem Inv.chain_step (hi : Inv s) (hch : ∀ sl ∈ s.slots, Chain sl) (hnew : UndoesNewest s a)
    (h : Heap.step s a = some s') : ∀ sl ∈ s'.slots, Chain sl := by
  intro sl' hsl'
  obtain ⟨o, hold, hst⟩ := slotStep h hsl'
  generalize s'.txn = t' at hst
  cases hst with
  | time | keep => exact hch sl' (hold _ rfl)
  | insert => exact ⟨trivial, rfl⟩
  | update _ _ _ _ hrow => exact (hch _ (hold _ rfl)).update hrow
  | delete _ _ _ _ hrow => exact (hch _ (hold _ rfl)).delete hrow
  | @visit x c u p todo sl hc hp hnext =>
    have hs := hi.slot sl (hold _ rfl)
    obtain ⟨z, v⟩ := u
    cases v with
    | stamps => exact (hch sl (hold _ rfl)).undoStamps
    | updates =>
      simp only [UndoesNewest, hnext] at hnew
      have hmem : ∀ w : Write, w.stamp.xid = z →
          (w.stamp.xid, Visit.updates) ∈ (z, Visit.updates) :: todo := fun w h =>
        h ▸ mem_cons_self
      have hkeep : ∀ w ∈ sl.updates, w.stamp.xid = z → w.trimmed = false := fun w hw h =>
        hs.untrimmed_of_visit hi.txn hi.condemned hc hp (mem_updates.1 hw).1 (hmem w h)
      refine (hch sl (hold _ rfl)).undoUpdates hs (hs.updates_newest hi.txn (fun w hw h =>
        ⟨hkeep w hw h, c, ?_, not_committed_of_visit hp⟩) (hnew sl (hold _ rfl))) hkeep
      rw [(hs.owner_of_visit hi.txn hi.condemned hc hp (mem_live.1 (mem_updates.1 hw).1).1
        (hmem w h)).1]
      exact hc
  | trim => exact (hch _ (hold _ rfl)).trim _

/-- Where there are chains, walks go all the way. -/
theorem Inv.walksUndo (hi : Inv s) (hch : ∀ sl ∈ s.slots, Chain sl) (a : Act) : WalksUndo s a := by
  have hwalk : ∀ (x i : ℕ), ∀ c ∈ s.running x, ∀ sl ∈ s.slots[i]?,
      sl.row.walks c.handle.snapshot s.txn.mgr.status := by
    intro x i c hrun sl hsl
    obtain ⟨hc, hp⟩ := running_eq_some.1 hrun
    have hmem := mem_of_getElem? hsl
    rw [← snapshotAt_current (hi.txn.client x c hc).command]
    exact (hi.slot sl hmem).walks hi.txn hc hp (hch sl hmem)
  cases a with
  | update x i | delete x i => exact hwalk x i
  | _ => trivial

end UltraSql.Heap
