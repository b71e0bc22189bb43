import UltraSql.Heap.ColumnCache

/-!
# Sessions over a cached heap

`Move` says once what a step that is also one of the heap does to each session: to its transaction,
to what it is doing and to the bump that it still has to make.

**Theorem (`exists_move`).** Every such step takes every session on by a `Move`.
-/

namespace UltraSql.CachedHeap

open Function Option
open Heap (Payload Stamp)
open Timeline (Client)
open Savepoints (Own)

variable {s s' : State} {t t' : Timeline.State} {a : Act} {x y z b k w : ℕ} {c d d' : Client}
  {st : Stamp} {rows : List Payload}

/-! ## What a step of the heap does to the sessions -/

/-- How a step takes the session `y` on, from the transaction `d` to `d'`. -/
inductive Move (s : State) (a : Act) (s' : State) (y : ℕ) (d d' : Client) : Prop
  | stay (hd : d' = d) (hj : s'.job y = s.job y)
  | write (hd : d' = d) (hj : s.job y = .ready ∨ s.job y = .writing) (hj' : s'.job y = .writing)
  | statement (hj : s.job y = .idle) (hj' : s'.job y = .ready) (hp : d.phase = .running)
    (hp' : d'.phase = .running)
    (hk : d'.handle.currentCommand = d.handle.currentCommand + 1)
    (hown : ∀ z, Own d.handle z → Own d'.handle z)
  | savepoint (hj : s.job y = .idle) (hj' : s'.job y = .idle) (hp : d.phase = .running)
    (hp' : d'.phase = .running) (hown : ∀ z, Own d.handle z → Own d'.handle z)
  | commit (hj : s.job y = .idle) (hj' : s'.job y = .idle) (hp : d.phase = .running)
    (hp' : d'.phase = .committed) (hh : d'.handle = d.handle)
  | restore (hj : s.job y = .idle ∨ s.job y = .failed) (hj' : s'.job y = .restoring)
    (hn : s.prepared y = false) (hp : d.phase = .running) (hp' : ∃ todo, d'.phase = .undoing todo)
    (hw : d.handle.writeXid ∈ d'.handle.subtxnStack.rolledBack)
  | rollback (path : AbortPath) (hj : s.job y ≠ .restoring) (hj' : s'.job y = .ending path false)
    (hn : s.pending y = none) (hpath : path ≠ .prepared → s.prepared y = false)
    (hp : d.phase = .running) (hp' : ∃ todo, d'.phase = .aborting todo)
    (hh : d'.handle = d.handle)
  | visit (hj : s.job y = .restoring ∨ ∃ p i, s.job y = .ending p i) (hj' : s'.job y = s.job y)
    (hn : s.pending y = none)
    (hp : (∃ todo, d.phase = .undoing todo) ∧
        (d'.phase = .running ∨ ∃ todo, d'.phase = .undoing todo) ∨
      (∃ todo, d.phase = .aborting todo) ∧ ∃ todo, d'.phase = .aborting todo)
    (hh : d'.handle = d.handle)
  | abort (hj : s'.job y = s.job y) (hn : s.pending y = none)
    (hpath : (∃ path, s.job y = .ending path true) ∨ s.EndsFirst y)
    (hp : d.phase = .aborting []) (hp' : d'.phase = .aborted) (hh : d'.handle = d.handle)
    (hact : a = .abort y)

/-- A session that is at the start of a statement was there before, or has a new command. -/
theorem Move.of_ready (h : Move s a s' y d d') (hj : s'.job y = .ready) :
    d' = d ∧ s.job y = .ready ∨
      d'.handle.currentCommand = d.handle.currentCommand + 1 := by
  have hne : ∀ {j : Job}, s'.job y = j → j ≠ .ready → False := fun h hne =>
    hne (h.symm.trans hj)
  cases h with
  | stay hd hj' => exact .inl ⟨hd, hj'.symm.trans hj⟩
  | statement _ _ _ _ hk => exact .inr hk
  | write _ _ h | savepoint _ h | commit _ h | restore _ h | rollback _ _ h =>
    exact (hne h nofun).elim
  | visit h hj' =>
    rcases h with h | ⟨path, i, h⟩ <;> exact (hne (hj'.trans h) nofun).elim
  | abort hj' _ h =>
    rcases h with ⟨path, h⟩ | ⟨path, -, h⟩ <;> exact (hne (hj'.trans h) nofun).elim

/-- A step is one of the heap as well, or leaves the heap alone. -/
theorem step_cases (h : step s a = some s') :
    s.Enabled a ∧ ((∃ act h', a.heapAct = some act ∧ Heap.step s.heap act = some h' ∧
      s' = s.afterHeap h' a) ∨ s.stepLocal a = some s') := by
  unfold step at h
  split_ifs at h with hen
  refine ⟨hen, ?_⟩
  cases ha : a.heapAct with
  | some act =>
    rw [ha] at h
    obtain ⟨h', hh, rfl⟩ := map_eq_some_iff.1 h
    exact .inl ⟨act, h', rfl, hh, rfl⟩
  | none =>
    rw [ha] at h
    exact .inr h

variable {act : Heap.Act} {h' : Heap.State}

/-- A step of the heap changes the job and the pending bump of its session. -/
theorem afterHeap_eq (s : State) (h' : Heap.State) (a : Act) :
    ∃ job pending, s.afterHeap h' a = { s with heap := h', job := job, pending := pending } := by
  unfold State.afterHeap
  repeat' split
  all_goals exact ⟨_, _, rfl⟩

@[simp] theorem heap_afterHeap : (s.afterHeap h' a).heap = h' := by
  obtain ⟨_, _, h⟩ := afterHeap_eq s h' a
  rw [h]

@[simp] theorem cache_afterHeap : (s.afterHeap h' a).cache = s.cache := by
  obtain ⟨_, _, h⟩ := afterHeap_eq s h' a
  rw [h]

@[simp] theorem modified_afterHeap : (s.afterHeap h' a).modified = s.modified := by
  obtain ⟨_, _, h⟩ := afterHeap_eq s h' a
  rw [h]

@[simp] theorem prepared_afterHeap : (s.afterHeap h' a).prepared = s.prepared := by
  obtain ⟨_, _, h⟩ := afterHeap_eq s h' a
  rw [h]

@[simp] theorem builds_afterHeap : (s.afterHeap h' a).builds = s.builds := by
  obtain ⟨_, _, h⟩ := afterHeap_eq s h' a
  rw [h]

/-- The end of a transaction leaves its handle alone. -/
theorem handle_of_end {p p' : Timeline.Phase} (h : Timeline.Turn d d') (hp : d.phase = p)
    (hp' : d'.phase = p') (hne : p' ≠ p) (hu : ∀ todo, p' ≠ .undoing todo) :
    d'.handle = d.handle := by
  cases h with
  | stay hs => exact absurd (hp'.symm.trans (hs.trans hp)) hne
  | undo _ _ hs => exact absurd (hp'.symm.trans hs) (hu _)
  | commit _ _ hh | rollback _ _ hh | abort _ _ hh => exact hh

/-- A session goes on as the same transaction while it is not rolled back to a savepoint. -/
theorem own_of_turn (h : Timeline.Turn d d') (hp : d'.phase = d.phase) (hrun : d.phase = .running)
    (hz : Own d.handle z) : Own d'.handle z := by
  cases h with
  | stay _ hown => exact hown z hz
  | undo _ _ hp' | commit _ hp' | rollback _ hp' | abort _ hp' =>
    rw [hp, hrun] at hp'
    cases hp'

theorem job_of_visit (h : s.Enabled (.visit x)) :
    s.job x = .restoring ∨ ∃ path i, s.job x = .ending path i := by
  rcases h.2 with hj | hj | hj | ⟨path, -, hj⟩
  · exact .inl hj
  · exact .inr ⟨_, _, hj⟩
  · exact .inr ⟨_, _, hj⟩
  · exact .inr ⟨path, false, hj⟩

section HeapStep

variable (hi : Heap.Inv s.heap) (ht : Heap.Timed s.heap act)
  (hidle : ∀ y, s.job y = .idle ∨ s.job y = .failed → s.pending y = none)
  (hen : s.Enabled a) (ha : a.heapAct = some act) (hh : Heap.step s.heap act = some h')

include hi ht hidle hen ha hh

/-- **How a step of the heap takes each session on.** -/
theorem exists_move (hd : s.heap.txn.clients.lookup y = some d) :
    ∃ d', h'.txn.clients.lookup y = some d' ∧ Move s a (s.afterHeap h' a) y d d' := by
  by_cases hy : act.session = some y
  swap
  · -- another session, or a write
    refine ⟨d, hi.lookup_other hh hy hd, ?_⟩
    cases a with
    | txn b =>
      cases ha
      refine .stay rfl ?_
      cases b with
      | refresh x | rollbackTo x =>
        exact update_of_ne (fun h => hy (congrArg some h.symm)) _ _
      | _ => rfl
    | write b =>
      cases ha
      obtain ⟨x, hx, hj⟩ := hen
      simp only [State.afterHeap, mem_def.1 hx]
      split_ifs
      · exact .stay rfl rfl
      · by_cases hyx : y = x
        · subst hyx
          exact .write rfl hj (update_self _ _ _)
        · exact .stay rfl (update_of_ne hyx _ _)
    | rollback x path =>
      cases ha
      exact .stay rfl (update_of_ne (fun h => hy (congrArg some h.symm)) _ _)
    | visit x =>
      simp only [State.afterHeap]
      split_ifs <;> exact .stay rfl rfl
    | abort | vacuum => exact .stay rfl rfl
    | _ => cases ha
  · -- its own session
    have htxn : ∀ {b : Timeline.Act}, act = .txn b → ∃ d', h'.txn.clients.lookup y = some d' ∧
        b.Moves d.phase d'.phase ∧ Timeline.Later d d' ∧
        Timeline.step s.heap.txn b = some h'.txn := by
      rintro b rfl
      have htime : Timeline.Timely s.heap.txn b = true := ht
      obtain ⟨t', ht, rfl⟩ := map_eq_some_iff.1 hh
      obtain ⟨c, c', hc, hm, hlook⟩ := hi.txn.step_session ht hy
      obtain rfl := mem_unique hd hc
      obtain ⟨d', hd', hl⟩ := hi.txn.later htime ht hd
      have hlook' := hlook y
      rw [if_pos rfl] at hlook'
      obtain rfl := mem_unique hlook' hd'
      exact ⟨c', hlook', hm, hl, ht⟩
    cases a with cases ha
    | txn b =>
      obtain ⟨d', hd', hm, hl, hstep⟩ := htxn rfl
      refine ⟨d', hd', ?_⟩
      cases b with
      | allocate | publish | begin => cases hy
      | refresh x =>
        cases hy
        exact .statement hen.1 (update_self _ _ _) hm.1 hm.2
          (hi.txn.command_of_refresh ht hstep hd hd')
          fun z => own_of_turn hl.turn (hm.2.trans hm.1.symm) hm.1
      | savepoint x | release x =>
        cases hy
        exact .savepoint hen.1 hen.1 hm.1 hm.2
          fun z => own_of_turn hl.turn (hm.2.trans hm.1.symm) hm.1
      | rollbackTo x =>
        cases hy
        exact .restore hen.1 (update_self _ _ _) hen.2 hm.1 hm.2
          (Timeline.writeXid_of_rollbackTo hstep hd hd')
      | commit x =>
        cases hy
        exact .commit hen hen hm.1 hm.2 (handle_of_end hl.turn hm.1 hm.2 (by simp) (by simp))
      | rollback | abort => cases hen
    | rollback x path =>
      cases hy
      obtain ⟨d', hd', ⟨hp, todo, hp'⟩, hl, -⟩ := htxn rfl
      refine ⟨d', hd', .rollback path ?_ (update_self _ _ _) ?_ ?_ hp ⟨todo, hp'⟩
        (handle_of_end hl.turn hp hp' (by simp) (by simp))⟩
      · intro hj
        cases path with
        | rollback => rcases hen.1 with h | h <;> rw [hj] at h <;> cases h
        | error => rcases hen.1 with h | h | h <;> rw [hj] at h <;> cases h
        | disconnect => rcases hen.1 with h | h | h | h <;> rw [hj] at h <;> cases h
        | failedCommit | commitError | prepared =>
          have h := hen.1
          rw [hj] at h
          cases h
      · cases path with
        | rollback => exact hidle _ hen.1
        | error | disconnect => exact hen.2.1
        | failedCommit => exact hidle _ (.inr hen.1)
        | commitError | prepared => exact hidle _ (.inl hen.1)
      · intro hpath
        cases path with
        | rollback | failedCommit | commitError => exact hen.2
        | error | disconnect => exact hen.2.2
        | prepared => exact absurd rfl hpath
    | visit x =>
      cases hy
      simp only [Heap.step] at hh
      split at hh <;> cases hh
      rename_i v t hv
      obtain ⟨c, p, todo, hc, rfl, hp⟩ := Timeline.nextVisit_eq_some hv
      obtain rfl := mem_unique hd hc
      refine ⟨_, (Timeline.lookup_setClient s.heap.txn y y _).trans (if_pos rfl), ?_⟩
      refine .visit (job_of_visit hen) ?_ hen.1 ?_ rfl
      · simp only [State.afterHeap]
        split_ifs <;> rfl
      · rcases hp with ⟨hp, rfl⟩ | ⟨hp, rfl⟩
        · refine .inl ⟨⟨_, hp⟩, ?_⟩
          cases todo with
          | nil => exact .inl rfl
          | cons v todo => exact .inr ⟨_, rfl⟩
        · exact .inr ⟨⟨_, hp⟩, _, rfl⟩
    | abort x =>
      cases hy
      obtain ⟨d', hd', ⟨hp, hp'⟩, hl, -⟩ := htxn rfl
      refine ⟨d', hd', .abort rfl hen.1 ?_ hp hp'
        (handle_of_end hl.turn hp hp' (by simp) (by simp)) rfl⟩
      rcases hen.2 with hj | hj | hj
      · exact .inl ⟨_, hj⟩
      · exact .inl ⟨_, hj⟩
      · exact .inr hj
    | write b =>
      obtain ⟨x, hx, -⟩ := hen
      cases act with
      | insert | update | delete => cases hy
      | _ => cases hx
    | vacuum b =>
      cases act with
      | enter | sample | trim | mark | markElsewhere => cases hy
      | _ => cases hen

end HeapStep

end UltraSql.CachedHeap
